/-
What a core of the thread system can be doing: the shapes its entry of
`g_table` has at each place in the code, and, once for all later proofs, what
a step can do from there.
-/
import IntroOs.Threads

namespace IntroOs

namespace Threads

variable {Core Sem : Type} [DecidableEq Core] [DecidableEq Sem]

/-- An entry of `g_table` with no hand-off requested. -/
def clear (prev curr : Option (Tcb Core)) : PerCore Core Sem :=
  ⟨prev, none, none, none, none, none, curr⟩

/-- The entry of a core whose thread `t` has left for the idle loop, with the
hand-off that goes with where it resumes. -/
def asks (c : Core) (t : Tcb Core) : Resume Sem → PerCore Core Sem
  | .stopRet => ⟨some t, some t, none, none, none, none, some (.idle c)⟩
  | .yieldRet => ⟨some t, none, some t, none, none, none, some (.idle c)⟩
  | .downRet sem =>
      ⟨some t, none, none, some t, some sem, some sem, some (.idle c)⟩
  | _ => clear (some t) (some (.idle c))

/-- The contexts a thread can leave behind. -/
inductive Leaves : Resume Sem → Prop
  | stop : Leaves .stopRet
  | yield : Leaves .yieldRet
  | down (sem : Sem) : Leaves (.downRet sem)

/-- A thread runs, and the idle loop waits behind its `switch_to`. -/
def OnThread (idleSp : Resume Sem) (pc : PerCore Core Sem) : Prop :=
  idleSp = .idleAfter ∧ ∃ prev id, pc = clear prev (some (.thread id))

/-- A thread or the boot code runs. -/
def Fore (idleSp : Resume Sem) (pc : PerCore Core Sem) : Prop :=
  pc = clear none none ∨ OnThread idleSp pc

/-- The idle loop runs and no hand-off is requested. -/
def Looping (c : Core) (pc : PerCore Core Sem) : Prop :=
  ∃ prev, pc = clear prev (some (.idle c))

def Leaving (c : Core) (idleSp : Resume Sem) (pc : PerCore Core Sem)
    (resume : Resume Sem) : Prop :=
  idleSp = .idleAfter ∧ Leaves resume ∧
    ∃ id, pc = asks c (.thread id) resume

/-- The idle loop is about to switch to a thread. -/
def Entering (c : Core) (pc : PerCore Core Sem) : Prop :=
  ∃ id, pc = clear (some (.idle c)) (some (.thread id))

def PushOk (c : Core) (idleSp : Resume Sem) (pc : PerCore Core Sem)
    (q : QueueId Sem) (value : Tcb Core) : PushSite Sem → Prop
  | .go => q = .ready ∧ (∃ id, value = .thread id) ∧ Fore idleSp pc
  | .up _ => q = .ready ∧ (∃ id, value = .thread id) ∧ OnThread idleSp pc
  | .deferred => ∃ id sem, q = .waiting sem ∧ value = .thread id ∧
      pc = asks c value (.downRet sem)
  | .reschedule => ∃ id, q = .ready ∧ value = .thread id ∧
      pc = asks c value .yieldRet

def PopOk (c : Core) (idleSp : Resume Sem) (pc : PerCore Core Sem) :
    PopSite Sem → Prop
  | .next => Looping c pc
  | .up _ => OnThread idleSp pc

def OpOk (c : Core) (idleSp : Resume Sem) (pc : PerCore Core Sem) :
    HeapOp Core Sem → Prop
  | .newStack | .newTcb _ => Fore idleSp pc
  | .newNode q value site => PushOk c idleSp pc q value site
  | .deleteNode _ value site =>
      (∃ id, value = .thread id) ∧ PopOk c idleSp pc site
  | .deleteStack tcb | .deleteTcb tcb =>
      ∃ id, tcb = .thread id ∧ pc = asks c tcb .stopRet

/-- What `g_table` holds for a core at each place in the code, where `idleSp`
is the context its idle TCB has saved. -/
def CtlOk (c : Core) (idleSp : Resume Sem) (pc : PerCore Core Sem) :
    Ctl Core Sem → Prop
  | .client => Fore idleSp pc
  | .heapWait op | .heapHold op => OpOk c idleSp pc op
  | .outOfMemory op => op.allocates = true ∧ OpOk c idleSp pc op
  | .pushWait q _ value site | .pushHold q _ value site =>
      PushOk c idleSp pc q value site
  | .popWait site | .popHold site => PopOk c idleSp pc site
  | .downWait _ | .downHold _ | .downUnlock _ | .downReturn _ | .upWait _
  | .upHold _ | .upUnlock _ | .upPanic _ => OnThread idleSp pc
  | .switchSave resume =>
      (resume = .stopRet ∧ pc = clear none (some (.idle c))) ∨
        Leaving c idleSp pc resume ∨ (resume = .idleAfter ∧ Entering c pc)
  | .switchLoad =>
      pc = clear none (some (.idle c)) ∨
        (∃ resume, Leaving c idleSp pc resume) ∨
        (idleSp = .idleAfter ∧ Entering c pc)
  | .after .toDelete => (∃ resume, Leaving c idleSp pc resume) ∨ Looping c pc
  | .after .deleted => ∃ id, pc = asks c (.thread id) .stopRet
  | .after .toQueue =>
      (∃ id sem, pc = asks c (.thread id) (.downRet sem)) ∨
        (∃ id, pc = asks c (.thread id) .yieldRet) ∨ Looping c pc
  | .after .unlock | .after .queued =>
      ∃ id sem, pc = asks c (.thread id) (.downRet sem)
  | .after .toReschedule =>
      (∃ id, pc = asks c (.thread id) .yieldRet) ∨ Looping c pc
  | .after .rescheduled => ∃ id, pc = asks c (.thread id) .yieldRet
  | .idlePanic | .unreachable => False

/-- Steps that only concern the core itself. -/
inductive Silent (c : Core) : CoreState Core Sem → CoreState Core Sem → Prop
  | go {pc : PerCore Core Sem} :
      Silent c ⟨pc, .client⟩ ⟨pc, .heapWait .newStack⟩
  | down {prev : Option (Tcb Core)} {id : Nat} {sem : Sem} :
      Silent c ⟨clear prev (some (.thread id)), .client⟩
        ⟨clear prev (some (.thread id)), .downWait sem⟩
  | bootStop :
      Silent c ⟨clear none none, .client⟩
        ⟨clear none (some (.idle c)), .switchSave .stopRet⟩
  | bootSave :
      Silent c ⟨clear none (some (.idle c)), .switchSave .stopRet⟩
        ⟨clear none (some (.idle c)), .switchLoad⟩
  | yield {prev : Option (Tcb Core)} {id : Nat} :
      Silent c ⟨clear prev (some (.thread id)), .client⟩
        ⟨asks c (.thread id) .yieldRet, .switchSave .yieldRet⟩
  | toDelete {id : Nat} :
      Silent c ⟨asks c (.thread id) .stopRet, .after .toDelete⟩
        ⟨asks c (.thread id) .stopRet, .heapWait (.deleteStack (.thread id))⟩
  | noDelete {pc : PerCore Core Sem} (none : pc.toDelete = none) :
      Silent c ⟨pc, .after .toDelete⟩ ⟨pc, .after .toQueue⟩
  | deleted {id : Nat} :
      Silent c ⟨asks c (.thread id) .stopRet, .after .deleted⟩
        ⟨clear (some (.thread id)) (some (.idle c)), .after .toQueue⟩
  | toQueue {id : Nat} {sem : Sem} :
      Silent c ⟨asks c (.thread id) (.downRet sem), .after .toQueue⟩
        ⟨asks c (.thread id) (.downRet sem),
          push (.waiting sem) (.thread id) .deferred⟩
  | noQueue {pc : PerCore Core Sem} (none : pc.toQueue = none) :
      Silent c ⟨pc, .after .toQueue⟩ ⟨pc, .after .toReschedule⟩
  | queued {id : Nat} {sem : Sem} :
      Silent c ⟨asks c (.thread id) (.downRet sem), .after .queued⟩
        ⟨clear (some (.thread id)) (some (.idle c)), .after .toReschedule⟩
  | toReschedule {id : Nat} :
      Silent c ⟨asks c (.thread id) .yieldRet, .after .toReschedule⟩
        ⟨asks c (.thread id) .yieldRet, schedule (.thread id) .reschedule⟩
  | noReschedule {pc : PerCore Core Sem} (none : pc.toReschedule = none) :
      Silent c ⟨pc, .after .toReschedule⟩ ⟨pc, .popWait .next⟩
  | rescheduled {id : Nat} :
      Silent c ⟨asks c (.thread id) .yieldRet, .after .rescheduled⟩
        ⟨clear (some (.thread id)) (some (.idle c)), .popWait .next⟩

/-- The places that spin on a lock, and the section behind it. -/
inductive Spins : Ctl Core Sem → Lock Sem → Ctl Core Sem → Prop
  | heap (op : HeapOp Core Sem) : Spins (.heapWait op) .heap (.heapHold op)
  | push (q : QueueId Sem) (node : Nat) (value : Tcb Core)
      (site : PushSite Sem) :
      Spins (.pushWait q node value site) (.queue q)
        (.pushHold q node value site)
  | pop (site : PopSite Sem) :
      Spins (.popWait site) (.queue site.queue) (.popHold site)
  | down (sem : Sem) : Spins (.downWait sem) (.sem sem) (.downHold sem)
  | up (sem : Sem) : Spins (.upWait sem) (.sem sem) (.upHold sem)

/-- Everything a step of core `c` can do. -/
inductive Move (c : Core) (s : Shared Core Sem) :
    CoreState Core Sem → Outcome Core Sem → Prop
  | silent {l l' : CoreState Core Sem} (moves : Silent c l l') :
      Move c s l ⟨none, l', s⟩
  | spin {pc : PerCore Core Sem} {ctl ctl' : Ctl Core Sem} {lock : Lock Sem}
      (spins : Spins ctl lock ctl') (isFree : s.locked lock = false) :
      Move c s ⟨pc, ctl⟩ ⟨none, ⟨pc, ctl'⟩, s.lock lock⟩
  | fail {pc : PerCore Core Sem} {op : HeapOp Core Sem}
      (allocates : op.allocates = true) :
      Move c s ⟨pc, .heapHold op⟩ ⟨none, ⟨pc, .outOfMemory op⟩, s.release .heap⟩
  | newStack {pc : PerCore Core Sem} (room : s.blocks.length < maxBlocks) :
      Move c s ⟨pc, .heapHold .newStack⟩
        ⟨none, ⟨pc, .heapWait (.newTcb s.nextId)⟩,
          (s.release .heap).alloc (.stack (.thread s.nextId))⟩
  | newTcb {pc : PerCore Core Sem} {id : Nat}
      (room : s.blocks.length < maxBlocks) :
      Move c s ⟨pc, .heapHold (.newTcb id)⟩
        ⟨some (.create (.thread id)), ⟨pc, schedule (.thread id) .go⟩,
          ((s.release .heap).alloc (.tcb (.thread id))).setSp (.thread id)
            .threadEntry⟩
  | newNode {pc : PerCore Core Sem} {q : QueueId Sem} {value : Tcb Core}
      {site : PushSite Sem} (room : s.blocks.length < maxBlocks) :
      Move c s ⟨pc, .heapHold (.newNode q value site)⟩
        ⟨none, ⟨pc, .pushWait q s.nextId value site⟩,
          ((s.release .heap).alloc (.node s.nextId)).setCell s.nextId
            ⟨value, none⟩⟩
  | dispatch {prev : Option (Tcb Core)} {node id : Nat} :
      Move c s
        ⟨clear prev (some (.idle c)),
          .heapHold (.deleteNode node (.thread id) .next)⟩
        ⟨none,
          ⟨clear (some (.idle c)) (some (.thread id)), .switchSave .idleAfter⟩,
          (s.release .heap).free (.node node)⟩
  | granted {pc : PerCore Core Sem} {node : Nat} {value : Tcb Core}
      {sem : Sem} :
      Move c s ⟨pc, .heapHold (.deleteNode node value (.up sem))⟩
        ⟨none, ⟨pc, schedule value (.up sem)⟩,
          (s.release .heap).free (.node node)⟩
  | deleteStack {id : Nat} :
      Move c s
        ⟨asks c (.thread id) .stopRet, .heapHold (.deleteStack (.thread id))⟩
        ⟨some (.freeStack c (.thread id)),
          ⟨asks c (.thread id) .stopRet, .heapWait (.deleteTcb (.thread id))⟩,
          (s.release .heap).free (.stack (.thread id))⟩
  | deleteTcb {id : Nat} :
      Move c s
        ⟨asks c (.thread id) .stopRet, .heapHold (.deleteTcb (.thread id))⟩
        ⟨some (.freeTcb c (.thread id)),
          ⟨asks c (.thread id) .stopRet, .after .deleted⟩,
          (s.release .heap).free (.tcb (.thread id))⟩
  | link {pc : PerCore Core Sem} {q : QueueId Sem} {node : Nat}
      {value : Tcb Core} {site : PushSite Sem} :
      Move c s ⟨pc, .pushHold q node value site⟩
        ⟨some (.link q value), ⟨pc, pushReturn site⟩,
          (s.link q node).release (.queue q)⟩
  | popEmpty {pc : PerCore Core Sem} {site : PopSite Sem}
      (empty : s.unlink site.queue = none) :
      Move c s ⟨pc, .popHold site⟩
        ⟨none, ⟨pc, popEmpty site⟩, s.release (.queue site.queue)⟩
  | unlink {pc : PerCore Core Sem} {site : PopSite Sem} {caller : Tcb Core}
      {node : Nat} {rest : Shared Core Sem} (curr : pc.curr = some caller)
      (found : s.unlink site.queue = some (node, rest)) :
      Move c s ⟨pc, .popHold site⟩
        ⟨some (.unlink caller site.queue (s.cells node).value),
          ⟨pc, .heapWait (.deleteNode node (s.cells node).value site)⟩,
          rest.release (.queue site.queue)⟩
  | block {prev : Option (Tcb Core)} {id : Nat} {sem : Sem}
      (neg : int64 (s.counter sem - 1) < 0) :
      Move c s ⟨clear prev (some (.thread id)), .downHold sem⟩
        ⟨some (.block sem (.thread id)),
          ⟨asks c (.thread id) (.downRet sem), .switchSave (.downRet sem)⟩,
          s.setCounter sem (int64 (s.counter sem - 1))⟩
  | pass {prev : Option (Tcb Core)} {id : Nat} {sem : Sem}
      (nonneg : ¬ int64 (s.counter sem - 1) < 0) :
      Move c s ⟨clear prev (some (.thread id)), .downHold sem⟩
        ⟨some (.pass sem (.thread id)),
          ⟨clear prev (some (.thread id)), .downUnlock sem⟩,
          s.setCounter sem (int64 (s.counter sem - 1))⟩
  | downUnlock {prev : Option (Tcb Core)} {id : Nat} {sem : Sem} :
      Move c s ⟨clear prev (some (.thread id)), .downUnlock sem⟩
        ⟨some (.downRet sem (.thread id)),
          ⟨clear prev (some (.thread id)), .client⟩, s.release (.sem sem)⟩
  | downReturn {prev : Option (Tcb Core)} {id : Nat} {sem : Sem} :
      Move c s ⟨clear prev (some (.thread id)), .downReturn sem⟩
        ⟨some (.downRet sem (.thread id)),
          ⟨clear prev (some (.thread id)), .client⟩, s⟩
  | callUp {prev : Option (Tcb Core)} {id : Nat} {sem : Sem} :
      Move c s ⟨clear prev (some (.thread id)), .client⟩
        ⟨some (.callUp sem (.thread id)),
          ⟨clear prev (some (.thread id)), .upWait sem⟩, s⟩
  | upWakes {prev : Option (Tcb Core)} {id : Nat} {sem : Sem}
      (neg : s.counter sem < 0) :
      Move c s ⟨clear prev (some (.thread id)), .upHold sem⟩
        ⟨some (.up sem (.thread id) true),
          ⟨clear prev (some (.thread id)), .popWait (.up sem)⟩,
          s.setCounter sem (int64 (s.counter sem + 1))⟩
  | upFrees {prev : Option (Tcb Core)} {id : Nat} {sem : Sem}
      (nonneg : ¬ s.counter sem < 0) :
      Move c s ⟨clear prev (some (.thread id)), .upHold sem⟩
        ⟨some (.up sem (.thread id) false),
          ⟨clear prev (some (.thread id)), .upUnlock sem⟩,
          s.setCounter sem (int64 (s.counter sem + 1))⟩
  | upUnlock {pc : PerCore Core Sem} {sem : Sem} :
      Move c s ⟨pc, .upUnlock sem⟩
        ⟨none, ⟨pc, .client⟩, s.release (.sem sem)⟩
  | stop {prev : Option (Tcb Core)} {id : Nat} :
      Move c s ⟨clear prev (some (.thread id)), .client⟩
        ⟨some (.stop c (.thread id)),
          ⟨asks c (.thread id) .stopRet, .switchSave .stopRet⟩, s⟩
  | saveThread {resume : Resume Sem} {id : Nat} (leaves : Leaves resume) :
      Move c s ⟨asks c (.thread id) resume, .switchSave resume⟩
        ⟨some (.save c (.thread id)),
          ⟨asks c (.thread id) resume, .switchLoad⟩,
          s.setSp (.thread id) resume⟩
  | saveIdle {id : Nat} :
      Move c s
        ⟨clear (some (.idle c)) (some (.thread id)), .switchSave .idleAfter⟩
        ⟨some (.save c (.idle c)),
          ⟨clear (some (.idle c)) (some (.thread id)), .switchLoad⟩,
          s.setSp (.idle c) .idleAfter⟩
  | loadEntry (saved : s.sp (.idle c) = .idleEntry) :
      Move c s ⟨clear none (some (.idle c)), .switchLoad⟩
        ⟨some (.load c (.idle c)),
          ⟨clear none (some (.idle c)), .popWait .next⟩, s⟩
  | loadIdle {pc : PerCore Core Sem} (curr : pc.curr = some (.idle c))
      (saved : s.sp (.idle c) = .idleAfter) :
      Move c s ⟨pc, .switchLoad⟩
        ⟨some (.load c (.idle c)), ⟨pc, .after .toDelete⟩, s⟩
  | loadThread {id : Nat} (saved : s.sp (.thread id) = .threadEntry ∨
      s.sp (.thread id) = .yieldRet) :
      Move c s ⟨clear (some (.idle c)) (some (.thread id)), .switchLoad⟩
        ⟨some (.load c (.thread id)),
          ⟨clear (some (.idle c)) (some (.thread id)), .client⟩, s⟩
  | loadDown {id : Nat} {sem : Sem} (saved : s.sp (.thread id) = .downRet sem) :
      Move c s ⟨clear (some (.idle c)) (some (.thread id)), .switchLoad⟩
        ⟨some (.load c (.thread id)),
          ⟨clear (some (.idle c)) (some (.thread id)), .downReturn sem⟩, s⟩
  | unlock {id : Nat} {sem : Sem} :
      Move c s ⟨asks c (.thread id) (.downRet sem), .after .unlock⟩
        ⟨none, ⟨asks c (.thread id) (.downRet sem), .after .queued⟩,
          s.release (.sem sem)⟩

section Inversion

variable {c : Core} {pc : PerCore Core Sem} {s : Shared Core Sem}
  {out : Outcome Core Sem} {idleSp : Resume Sem}

section

omit [DecidableEq Core] [DecidableEq Sem]

theorem Fore.isClear (h : Fore idleSp pc) : ∃ prev curr, pc = clear prev curr := by
  rcases h with rfl | ⟨-, prev, id, rfl⟩
  · exact ⟨none, none, rfl⟩
  · exact ⟨prev, some (.thread id), rfl⟩

theorem Fore.onThread {prev : Option (Tcb Core)} {t : Tcb Core}
    (h : Fore idleSp (clear prev (some t) : PerCore Core Sem)) :
    OnThread idleSp (clear prev (some t) : PerCore Core Sem) := by
  rcases h with hboot | hthread
  · cases hboot
  · exact hthread

theorem Silent.ctlOk {l l' : CoreState Core Sem} (h : Silent c l l')
    (hok : CtlOk c idleSp l.pc l.ctl) : CtlOk c idleSp l'.pc l'.ctl := by
  cases h with
  | go => exact hok
  | down => exact Fore.onThread hok
  | bootStop => exact Or.inl ⟨rfl, rfl⟩
  | bootSave => exact Or.inl rfl
  | yield => exact Or.inr (Or.inl ⟨hok.onThread.1, .yield, _, rfl⟩)
  | toDelete => exact ⟨_, rfl, rfl⟩
  | noDelete hnone =>
      rcases hok with ⟨resume, -, hleaves, id, rfl⟩ | hloop
      · cases hleaves with
        | stop => cases hnone
        | yield => exact Or.inr (Or.inl ⟨_, rfl⟩)
        | down sem => exact Or.inl ⟨_, _, rfl⟩
      · exact Or.inr (Or.inr hloop)
  | deleted => exact Or.inr (Or.inr ⟨_, rfl⟩)
  | toQueue => exact ⟨_, _, rfl, rfl, rfl⟩
  | noQueue hnone =>
      rcases hok with ⟨id, sem, rfl⟩ | hyield | hloop
      · cases hnone
      · exact Or.inl hyield
      · exact Or.inr hloop
  | queued => exact Or.inr ⟨_, rfl⟩
  | toReschedule => exact ⟨_, rfl, rfl, rfl⟩
  | noReschedule hnone =>
      rcases hok with ⟨id, rfl⟩ | hloop
      · cases hnone
      · exact hloop
  | rescheduled => exact ⟨_, rfl⟩

theorem Spins.ctlOk {ctl ctl' : Ctl Core Sem} {lock : Lock Sem}
    (h : Spins ctl lock ctl') (hok : CtlOk c idleSp pc ctl) :
    CtlOk c idleSp pc ctl' := by
  cases h <;> exact hok

theorem asks_curr (t : Tcb Core) (resume : Resume Sem) :
    (asks c t resume).curr = some (.idle c) := by
  cases resume <;> rfl

end

theorem call_move {op : Call Sem} (hok : Fore idleSp pc)
    (hstep : call c ⟨pc, .client⟩ s op = some out) :
    Move c s ⟨pc, .client⟩ out := by
  rcases hok with rfl | ⟨-, prev, id, rfl⟩
  · cases op with
    | go =>
        cases hstep
        exact .silent .go
    | stop =>
        cases hstep
        exact .silent .bootStop
    | yield => cases hstep
    | down sem => cases hstep
    | up sem => cases hstep
  · cases op with
    | go =>
        cases hstep
        exact .silent .go
    | stop =>
        cases hstep
        exact .stop
    | yield =>
        cases hstep
        exact .silent .yield
    | down sem =>
        cases hstep
        exact .silent .down
    | up sem =>
        cases hstep
        exact .callUp

theorem heapSection_move {op : HeapOp Core Sem} (hok : OpOk c idleSp pc op)
    (hroom : op.allocates = true → s.blocks.length < maxBlocks) :
    Move c s ⟨pc, .heapHold op⟩
      (heapSection c ⟨pc, .heapHold op⟩ (s.release .heap) op) := by
  cases op with
  | newStack => exact .newStack (hroom rfl)
  | newTcb id => exact .newTcb (hroom rfl)
  | newNode q value site => exact .newNode (hroom rfl)
  | deleteNode node value site =>
      obtain ⟨⟨id, rfl⟩, hsite⟩ := hok
      cases site with
      | next =>
          obtain ⟨prev, rfl⟩ := hsite
          exact .dispatch
      | up sem => exact .granted
  | deleteStack tcb =>
      obtain ⟨id, rfl, rfl⟩ := hok
      exact .deleteStack
  | deleteTcb tcb =>
      obtain ⟨id, rfl, rfl⟩ := hok
      exact .deleteTcb

theorem idleLoop_move {stage : Stage}
    (hok : CtlOk c idleSp pc (.after stage)) :
    Move c s ⟨pc, .after stage⟩ (idleLoop ⟨pc, .after stage⟩ s stage) := by
  cases stage with
  | toDelete =>
      rcases hok with ⟨resume, -, hleaves, id, rfl⟩ | ⟨prev, rfl⟩
      · cases hleaves with
        | stop => exact .silent .toDelete
        | yield => exact .silent (.noDelete rfl)
        | down sem => exact .silent (.noDelete rfl)
      · exact .silent (.noDelete rfl)
  | deleted =>
      obtain ⟨id, rfl⟩ := hok
      exact .silent .deleted
  | toQueue =>
      rcases hok with ⟨id, sem, rfl⟩ | ⟨id, rfl⟩ | ⟨prev, rfl⟩
      · exact .silent .toQueue
      · exact .silent (.noQueue rfl)
      · exact .silent (.noQueue rfl)
  | unlock =>
      obtain ⟨id, sem, rfl⟩ := hok
      exact .unlock
  | queued =>
      obtain ⟨id, sem, rfl⟩ := hok
      exact .silent .queued
  | toReschedule =>
      rcases hok with ⟨id, rfl⟩ | ⟨prev, rfl⟩
      · exact .silent .toReschedule
      · exact .silent (.noReschedule rfl)
  | rescheduled =>
      obtain ⟨id, rfl⟩ := hok
      exact .silent .rescheduled

theorem spin_move {ctl ctl' : Ctl Core Sem} {lock : Lock Sem}
    (hspins : Spins ctl lock ctl')
    (hstep : spin ⟨pc, ctl⟩ s lock ctl' = some out) :
    Move c s ⟨pc, ctl⟩ out := by
  unfold spin Shared.acquire at hstep
  cases hlocked : s.locked lock with
  | true =>
      rw [hlocked] at hstep
      cases hstep
  | false =>
      rw [hlocked] at hstep
      cases hstep
      exact .spin hspins hlocked

theorem popHold_move {site : PopSite Sem} (hok : PopOk c idleSp pc site)
    (hstep : run c ⟨pc, .popHold site⟩ s = some out) :
    Move c s ⟨pc, .popHold site⟩ out := by
  have hcurr : ∃ caller, pc.curr = some caller := by
    cases site with
    | next =>
        obtain ⟨prev, rfl⟩ := hok
        exact ⟨_, rfl⟩
    | up sem =>
        obtain ⟨-, prev, id, rfl⟩ := hok
        exact ⟨_, rfl⟩
  obtain ⟨caller, hcaller⟩ := hcurr
  unfold run at hstep
  cases hunlink : s.unlink site.queue with
  | none =>
      simp only [hunlink] at hstep
      cases hstep
      exact .popEmpty hunlink
  | some found =>
      obtain ⟨node, rest⟩ := found
      simp only [hunlink, hcaller] at hstep
      cases hstep
      exact .unlink hcaller hunlink

theorem switchSave_move {resume : Resume Sem}
    (hok : CtlOk c idleSp pc (.switchSave resume))
    (hstep : run c ⟨pc, .switchSave resume⟩ s = some out) :
    Move c s ⟨pc, .switchSave resume⟩ out := by
  rcases hok with ⟨rfl, rfl⟩ | ⟨-, hleaves, id, rfl⟩ | ⟨rfl, id, rfl⟩
  · cases hstep
    exact .silent .bootSave
  · have hsave : run c ⟨asks c (.thread id) resume, .switchSave resume⟩ s =
        some ⟨some (.save c (.thread id)),
          ⟨asks c (.thread id) resume, .switchLoad⟩,
          s.setSp (.thread id) resume⟩ := by
      cases hleaves <;> rfl
    rw [hsave] at hstep
    cases hstep
    exact .saveThread hleaves
  · cases hstep
    exact .saveIdle

/-- The saved contexts a core may load: its own idle loop's, and a thread's
that has not been stopped. -/
structure Loadable (c : Core) (pc : PerCore Core Sem) (s : Shared Core Sem) :
    Prop where
  idle : s.sp (.idle c) = .idleEntry ∨ s.sp (.idle c) = .idleAfter
  thread : ∀ id, pc.curr = some (.thread id) →
    s.sp (.thread id) = .threadEntry ∨ s.sp (.thread id) = .yieldRet ∨
      ∃ sem, s.sp (.thread id) = .downRet sem

theorem switchLoad_move (hload : Loadable c pc s)
    (hok : CtlOk c (s.sp (.idle c)) pc .switchLoad)
    (hstep : run c ⟨pc, .switchLoad⟩ s = some out) :
    Move c s ⟨pc, .switchLoad⟩ out := by
  have hidle : ∀ {pc : PerCore Core Sem}, pc.curr = some (.idle c) →
      s.sp (.idle c) = .idleAfter → run c ⟨pc, .switchLoad⟩ s = some out →
      Move c s ⟨pc, .switchLoad⟩ out := by
    intro pc hcurr hsp hrun
    simp only [run, hcurr, Option.map_some, hsp, resume] at hrun
    cases hrun
    exact .loadIdle hcurr hsp
  rcases hok with rfl | ⟨resume, hsp, hleaves, id, rfl⟩ | ⟨hsp, id, rfl⟩
  · rcases hload.idle with hsp | hsp
    · simp only [run, clear, Option.map_some, hsp, resume] at hstep
      cases hstep
      exact .loadEntry hsp
    · exact hidle rfl hsp hstep
  · refine hidle ?_ hsp hstep
    cases hleaves <;> rfl
  · rcases hload.thread id rfl with hthread | hthread | ⟨sem, hthread⟩
    · simp only [run, clear, Option.map_some, hthread, resume] at hstep
      cases hstep
      exact .loadThread (Or.inl hthread)
    · simp only [run, clear, Option.map_some, hthread, resume] at hstep
      cases hstep
      exact .loadThread (Or.inr hthread)
    · simp only [run, clear, Option.map_some, hthread, resume] at hstep
      cases hstep
      exact .loadDown hthread

theorem run_move {ctl : Ctl Core Sem} (hload : Loadable c pc s)
    (hok : CtlOk c (s.sp (.idle c)) pc ctl)
    (hstep : run c ⟨pc, ctl⟩ s = some out) : Move c s ⟨pc, ctl⟩ out := by
  cases ctl with
  | client => cases hstep
  | heapWait op => exact spin_move (.heap op) hstep
  | heapHold op =>
      simp only [run] at hstep
      split at hstep
      · cases hstep
      · next hroom =>
          cases hstep
          refine heapSection_move hok fun hallocates => ?_
          exact Nat.lt_of_not_le fun hle => hroom ⟨hallocates, hle⟩
  | outOfMemory op => cases hstep
  | pushWait q node value site => exact spin_move (.push q node value site) hstep
  | pushHold q node value site =>
      cases hstep
      exact .link
  | popWait site => exact spin_move (.pop site) hstep
  | popHold site => exact popHold_move hok hstep
  | downWait sem => exact spin_move (.down sem) hstep
  | downHold sem =>
      obtain ⟨-, prev, id, rfl⟩ := hok
      simp only [run, Shared.setCounter, Function.update_self] at hstep
      split at hstep
      · next hneg =>
          cases hstep
          exact .block hneg
      · next hneg =>
          cases hstep
          exact .pass hneg
  | downUnlock sem =>
      obtain ⟨-, prev, id, rfl⟩ := hok
      cases hstep
      exact .downUnlock
  | downReturn sem =>
      obtain ⟨-, prev, id, rfl⟩ := hok
      cases hstep
      exact .downReturn
  | upWait sem => exact spin_move (.up sem) hstep
  | upHold sem =>
      obtain ⟨-, prev, id, rfl⟩ := hok
      by_cases hneg : s.counter sem < 0
      · simp only [run, hneg, decide_true, ↓reduceIte] at hstep
        cases hstep
        exact .upWakes hneg
      · simp only [run, hneg, decide_false, Bool.false_eq_true,
          ↓reduceIte] at hstep
        cases hstep
        exact .upFrees hneg
  | upUnlock sem =>
      cases hstep
      exact .upUnlock
  | switchSave resume => exact switchSave_move hok hstep
  | switchLoad => exact switchLoad_move hload hok hstep
  | after stage =>
      cases hstep
      exact idleLoop_move hok
  | upPanic sem => cases hstep
  | idlePanic => cases hstep
  | unreachable => cases hstep

/-- Every step is one of the moves. -/
theorem coreStep_move {action : Action Sem} {l : CoreState Core Sem}
    (hload : Loadable c l.pc s) (hok : CtlOk c (s.sp (.idle c)) l.pc l.ctl)
    (hstep : coreStep c action l s = some out) : Move c s l out := by
  obtain ⟨pc, ctl⟩ := l
  cases action with
  | call op =>
      cases ctl with
      | client => exact call_move hok hstep
      | _ => cases hstep
  | run => exact run_move hload hok hstep
  | fail =>
      cases ctl with
      | heapHold op =>
          simp only [coreStep] at hstep
          split at hstep
          · next hallocates =>
              cases hstep
              exact .fail hallocates
          · cases hstep
      | _ => cases hstep

section

omit [DecidableEq Core]

/-- Taking the first node off a queue changes only that queue. -/
theorem unlink_eq {q : QueueId Sem} {node : Nat} {rest : Shared Core Sem}
    (h : s.unlink q = some (node, rest)) :
    ∃ left, LinkedQueue.unlink s.cells (s.queue q) = some (node, left) ∧
      rest = { s with queue := Function.update s.queue q left } := by
  unfold Shared.unlink at h
  rw [Option.map_eq_some_iff] at h
  obtain ⟨⟨found, left⟩, hfound, heq⟩ := h
  cases heq
  exact ⟨left, hfound, rfl⟩

end

/-- An entry of `g_table` has no hand-off requested, or the one of a thread
that has left. -/
def Shaped (c : Core) (pc : PerCore Core Sem) : Prop :=
  (∃ prev curr, pc = clear prev curr) ∨ ∃ t resume, pc = asks c t resume

section

omit [DecidableEq Core] [DecidableEq Sem]

theorem Looping.shaped (h : Looping c pc) : Shaped c pc := by
  obtain ⟨prev, rfl⟩ := h
  exact .inl ⟨prev, _, rfl⟩

theorem OnThread.shaped (h : OnThread idleSp pc) : Shaped c pc := by
  obtain ⟨-, prev, id, rfl⟩ := h
  exact .inl ⟨prev, _, rfl⟩

theorem Fore.shaped (h : Fore idleSp pc) : Shaped c pc := .inl h.isClear

theorem Leaving.shaped {resume : Resume Sem}
    (h : Leaving c idleSp pc resume) : Shaped c pc := by
  obtain ⟨-, -, id, rfl⟩ := h
  exact .inr ⟨_, _, rfl⟩

theorem Entering.shaped (h : Entering c pc) : Shaped c pc := by
  obtain ⟨id, rfl⟩ := h
  exact .inl ⟨_, _, rfl⟩

theorem PushOk.shaped {q : QueueId Sem} {value : Tcb Core}
    {site : PushSite Sem} (h : PushOk c idleSp pc q value site) :
    Shaped c pc := by
  cases site with
  | go => exact h.2.2.shaped
  | up sem => exact h.2.2.shaped
  | deferred =>
      obtain ⟨id, sem, -, -, rfl⟩ := h
      exact .inr ⟨_, _, rfl⟩
  | reschedule =>
      obtain ⟨id, -, -, rfl⟩ := h
      exact .inr ⟨_, _, rfl⟩

theorem PopOk.shaped {site : PopSite Sem} (h : PopOk c idleSp pc site) :
    Shaped c pc := by
  cases site with
  | next => exact Looping.shaped h
  | up sem => exact OnThread.shaped h

theorem OpOk.shaped {op : HeapOp Core Sem} (h : OpOk c idleSp pc op) :
    Shaped c pc := by
  cases op with
  | newStack => exact Fore.shaped h
  | newTcb id => exact Fore.shaped h
  | newNode q value site => exact PushOk.shaped h
  | deleteNode node value site => exact h.2.shaped
  | deleteStack tcb =>
      obtain ⟨id, -, rfl⟩ := h
      exact .inr ⟨_, _, rfl⟩
  | deleteTcb tcb =>
      obtain ⟨id, -, rfl⟩ := h
      exact .inr ⟨_, _, rfl⟩

theorem CtlOk.shaped {ctl : Ctl Core Sem} (hok : CtlOk c idleSp pc ctl) :
    Shaped c pc := by
  cases ctl with
  | client => exact Fore.shaped hok
  | heapWait op => exact OpOk.shaped hok
  | heapHold op => exact OpOk.shaped hok
  | outOfMemory op => exact hok.2.shaped
  | pushWait q node value site => exact PushOk.shaped hok
  | pushHold q node value site => exact PushOk.shaped hok
  | popWait site => exact PopOk.shaped hok
  | popHold site => exact PopOk.shaped hok
  | switchSave resume =>
      rcases hok with ⟨-, rfl⟩ | hleave | ⟨-, henter⟩
      · exact .inl ⟨_, _, rfl⟩
      · exact hleave.shaped
      · exact henter.shaped
  | switchLoad =>
      rcases hok with rfl | ⟨resume, hleave⟩ | ⟨-, henter⟩
      · exact .inl ⟨_, _, rfl⟩
      · exact hleave.shaped
      · exact henter.shaped
  | after stage =>
      cases stage with
      | toDelete =>
          rcases hok with ⟨resume, hleave⟩ | hlooping
          · exact hleave.shaped
          · exact hlooping.shaped
      | toQueue =>
          rcases hok with ⟨id, sem, rfl⟩ | ⟨id, rfl⟩ | hlooping
          · exact .inr ⟨_, _, rfl⟩
          · exact .inr ⟨_, _, rfl⟩
          · exact hlooping.shaped
      | unlock =>
          obtain ⟨id, sem, rfl⟩ := hok
          exact .inr ⟨_, _, rfl⟩
      | queued =>
          obtain ⟨id, sem, rfl⟩ := hok
          exact .inr ⟨_, _, rfl⟩
      | toReschedule =>
          rcases hok with ⟨id, rfl⟩ | hlooping
          · exact .inr ⟨_, _, rfl⟩
          · exact hlooping.shaped
      | _ =>
          obtain ⟨id, rfl⟩ := hok
          exact .inr ⟨_, _, rfl⟩
  | idlePanic => exact hok.elim
  | unreachable => exact hok.elim
  | _ => exact OnThread.shaped hok

/-- The entry of a core whose `curr` is a thread is clear. -/
theorem CtlOk.clear_of_curr {ctl : Ctl Core Sem} (hok : CtlOk c idleSp pc ctl)
    {id : Nat} (hcurr : pc.curr = some (.thread id)) :
    ∃ prev, pc = clear prev (some (.thread id)) := by
  rcases hok.shaped with ⟨prev, curr, rfl⟩ | ⟨t, resume, rfl⟩
  · exact ⟨prev, congrArg (clear prev) hcurr⟩
  · rw [asks_curr] at hcurr
    cases hcurr

/-- The two slots of a blocked thread's semaphore belong together. -/
theorem Shaped.toUnlock_eq (h : Shaped c pc) : pc.toUnlock = pc.toAddTo := by
  rcases h with ⟨prev, curr, rfl⟩ | ⟨t, resume, rfl⟩
  · rfl
  · cases resume <;> rfl

/-- Only threads are ever pushed. -/
theorem PushOk.value_eq {q : QueueId Sem} {value : Tcb Core}
    {site : PushSite Sem} (hok : PushOk c idleSp pc q value site) :
    ∃ id, value = .thread id := by
  cases site with
  | go => exact hok.2.1
  | up sem => exact hok.2.1
  | deferred =>
      obtain ⟨id, sem, -, hvalue, -⟩ := hok
      exact ⟨id, hvalue⟩
  | reschedule =>
      obtain ⟨id, -, hvalue, -⟩ := hok
      exact ⟨id, hvalue⟩

theorem pushReturn_ctlOk {q : QueueId Sem} {value : Tcb Core}
    {site : PushSite Sem} (hok : PushOk c idleSp pc q value site) :
    CtlOk c idleSp pc (pushReturn site) := by
  cases site with
  | go => exact hok.2.2
  | up sem => exact hok.2.2
  | deferred =>
      obtain ⟨id, sem, -, rfl, rfl⟩ := hok
      exact ⟨id, sem, rfl⟩
  | reschedule =>
      obtain ⟨id, -, rfl, rfl⟩ := hok
      exact ⟨id, rfl⟩

end

/-- A move keeps the shape, provided that what it takes off a queue is a
thread. -/
theorem Move.ctlOk {l : CoreState Core Sem} (h : Move c s l out)
    (hvalue : ∀ q node rest, s.unlink q = some (node, rest) →
      ∃ id, (s.cells node).value = .thread id)
    (hok : CtlOk c (s.sp (.idle c)) l.pc l.ctl) :
    CtlOk c (out.shared.sp (.idle c)) out.core.pc out.core.ctl := by
  cases h with
  | silent hsilent => exact hsilent.ctlOk hok
  | spin hspins _ => exact hspins.ctlOk hok
  | fail hallocates => exact ⟨hallocates, hok⟩
  | newStack _ => exact hok
  | newTcb _ => exact ⟨rfl, ⟨_, rfl⟩, hok⟩
  | newNode _ => exact hok
  | dispatch => exact Or.inr (Or.inr ⟨rfl, _, rfl⟩)
  | granted => exact ⟨rfl, hok.1, hok.2⟩
  | deleteStack => exact hok
  | deleteTcb => exact ⟨_, rfl⟩
  | link => exact pushReturn_ctlOk hok
  | @popEmpty pc site _ =>
      cases site with
      | next => exact hok
      | up sem => exact hok
  | unlink _ hfound =>
      obtain ⟨left, -, rfl⟩ := unlink_eq hfound
      exact ⟨hvalue _ _ _ hfound, hok⟩
  | block _ => exact Or.inr (Or.inl ⟨hok.1, .down _, _, rfl⟩)
  | pass _ => exact hok
  | downUnlock => exact Or.inr hok
  | downReturn => exact Or.inr hok
  | callUp => exact Fore.onThread hok
  | upWakes _ => exact hok
  | upFrees _ => exact hok
  | upUnlock => exact Or.inr hok
  | stop => exact Or.inr (Or.inl ⟨hok.onThread.1, .stop, _, rfl⟩)
  | saveThread hleaves =>
      rcases hok with ⟨rfl, hboot⟩ | hleaving | ⟨rfl, -⟩
      · cases hboot
      · exact Or.inr (Or.inl ⟨_, hleaving⟩)
      · cases hleaves
  | saveIdle =>
      exact Or.inr (Or.inr ⟨by simp [Shared.setSp], _, rfl⟩)
  | loadEntry _ => exact ⟨_, rfl⟩
  | loadIdle hcurr _ =>
      rcases hok with rfl | hleaving | ⟨-, id, rfl⟩
      · exact Or.inr ⟨_, rfl⟩
      · exact Or.inl hleaving
      · cases hcurr
  | loadThread _ =>
      rcases hok with hboot | ⟨resume, -, hleaves, id, heq⟩ | ⟨hsp, -⟩
      · cases hboot
      · cases hleaves <;> cases heq
      · exact Or.inr ⟨hsp, _, _, rfl⟩
  | loadDown _ =>
      rcases hok with hboot | ⟨resume, -, hleaves, id, heq⟩ | ⟨hsp, -⟩
      · cases hboot
      · cases hleaves <;> cases heq
      · exact ⟨hsp, _, _, rfl⟩
  | unlock => exact ⟨_, _, rfl⟩

end Inversion

end Threads

end IntroOs
