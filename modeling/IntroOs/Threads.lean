/-
The thread system: `go`, `yield`, `stop`, semaphores, the ready queue and the
idle loop of every core, as an interleaving of the cores' atomic steps.  A
core's own entry of `g_table` and its place in the code are private to it; the
spinlocks, queues, counters, saved stack pointers and the heap are shared.
-/
import IntroOs.Heap
import IntroOs.LinkedQueue

namespace IntroOs

namespace Threads

/-- Thread control blocks: the idle TCB of each core, and those built by `go`,
named after the allocation of their stack, so that no name is used twice. -/
inductive Tcb (Core : Type) where
  | idle (core : Core)
  | thread (id : Nat)
deriving DecidableEq

/-- The spin queues: `g_ready_queue` and the `q` of each semaphore. -/
inductive QueueId (Sem : Type) where
  | ready
  | waiting (sem : Sem)
deriving DecidableEq

/-- The spinlocks: the heap's, that of each queue and that of each
semaphore. -/
inductive Lock (Sem : Type) where
  | heap
  | queue (q : QueueId Sem)
  | sem (sem : Sem)
deriving DecidableEq

/-- Heap blocks of the thread layer. -/
inductive Block (Core : Type) where
  | stack (tcb : Tcb Core)
  | tcb (tcb : Tcb Core)
  | node (id : Nat)
deriving DecidableEq

/-- Where a saved context goes on when it is switched to: at the start of
`idle_loop`, behind its `switch_to`, in `thread_trampoline`, or behind the
`switch_to` of `yield`, `down` and `stop`. -/
inductive Resume (Sem : Type) where
  | idleEntry
  | idleAfter
  | threadEntry
  | yieldRet
  | downRet (sem : Sem)
  | stopRet
deriving DecidableEq

/-- The callers of `SpinQueue::push`. -/
inductive PushSite (Sem : Type) where
  | go
  | up (sem : Sem)
  | deferred
  | reschedule
deriving DecidableEq

/-- The callers of `SpinQueue::pop`. -/
inductive PopSite (Sem : Type) where
  | next
  | up (sem : Sem)
deriving DecidableEq

def PopSite.queue {Sem : Type} : PopSite Sem → QueueId Sem
  | .next => .ready
  | .up sem => .waiting sem

/-- The uses of `new` and `delete`, with what their callers hold meanwhile. -/
inductive HeapOp (Core Sem : Type) where
  | newStack
  | newTcb (id : Nat)
  | newNode (q : QueueId Sem) (value : Tcb Core) (site : PushSite Sem)
  | deleteNode (node : Nat) (value : Tcb Core) (site : PopSite Sem)
  | deleteStack (tcb : Tcb Core)
  | deleteTcb (tcb : Tcb Core)
deriving DecidableEq

def HeapOp.allocates {Core Sem : Type} : HeapOp Core Sem → Bool
  | .newStack | .newTcb _ | .newNode _ _ _ => true
  | .deleteNode _ _ _ | .deleteStack _ | .deleteTcb _ => false

/-- The statements of `idle_loop` behind its `switch_to`. -/
inductive Stage where
  | toDelete
  | deleted
  | toQueue
  | unlock
  | queued
  | toReschedule
  | rescheduled
deriving DecidableEq

/-- Where a core is in the code.  `client` is a thread's own code, or the boot
code of a core that runs no thread yet.  `…Wait` spins on a lock, `…Hold` is
the section behind it, and the panics are the failed `ASSERT`s of `up` and
`idle_loop`. -/
inductive Ctl (Core Sem : Type) where
  | client
  | heapWait (op : HeapOp Core Sem)
  | heapHold (op : HeapOp Core Sem)
  | outOfMemory (op : HeapOp Core Sem)
  | pushWait (q : QueueId Sem) (node : Nat) (value : Tcb Core)
      (site : PushSite Sem)
  | pushHold (q : QueueId Sem) (node : Nat) (value : Tcb Core)
      (site : PushSite Sem)
  | popWait (site : PopSite Sem)
  | popHold (site : PopSite Sem)
  | downWait (sem : Sem)
  | downHold (sem : Sem)
  | downUnlock (sem : Sem)
  | downReturn (sem : Sem)
  | upWait (sem : Sem)
  | upHold (sem : Sem)
  | upUnlock (sem : Sem)
  | switchSave (resume : Resume Sem)
  | switchLoad
  | after (stage : Stage)
  | upPanic (sem : Sem)
  | idlePanic
  | unreachable
deriving DecidableEq

/-- An entry of `g_table`, its constant `idle` left out. -/
structure PerCore (Core Sem : Type) where
  prev : Option (Tcb Core)
  toDelete : Option (Tcb Core)
  toReschedule : Option (Tcb Core)
  toQueue : Option (Tcb Core)
  toAddTo : Option Sem
  toUnlock : Option Sem
  curr : Option (Tcb Core)
deriving DecidableEq

structure CoreState (Core Sem : Type) where
  pc : PerCore Core Sem
  ctl : Ctl Core Sem
deriving DecidableEq

structure Shared (Core Sem : Type) where
  sp : Tcb Core → Resume Sem
  locked : Lock Sem → Bool
  cells : LinkedQueue.Cells Nat (Tcb Core)
  queue : QueueId Sem → LinkedQueue.Queue Nat
  counter : Sem → Int
  nextId : Nat
  blocks : List (Block Core)

structure Machine (Core Sem : Type) where
  cores : Core → CoreState Core Sem
  shared : Shared Core Sem

/-- What a run is observed to do. -/
inductive Event (Core Sem : Type) where
  | create (tcb : Tcb Core)
  | load (core : Core) (tcb : Tcb Core)
  | save (core : Core) (tcb : Tcb Core)
  | stop (core : Core) (tcb : Tcb Core)
  | freeStack (core : Core) (tcb : Tcb Core)
  | freeTcb (core : Core) (tcb : Tcb Core)
  | link (q : QueueId Sem) (tcb : Tcb Core)
  | unlink (caller : Tcb Core) (q : QueueId Sem) (tcb : Tcb Core)
  | pass (sem : Sem) (caller : Tcb Core)
  | block (sem : Sem) (caller : Tcb Core)
  | downRet (sem : Sem) (caller : Tcb Core)
  | callUp (sem : Sem) (caller : Tcb Core)
  | up (sem : Sem) (caller : Tcb Core) (wakes : Bool)
deriving DecidableEq

/-- Calls a context can make. -/
inductive Call (Sem : Type) where
  | go
  | yield
  | stop
  | down (sem : Sem)
  | up (sem : Sem)
deriving DecidableEq

/-- What the core that takes a step does: its context makes a call, it goes
on, or the `new` it is in finds no memory. -/
inductive Action (Sem : Type) where
  | call (op : Call Sem)
  | run
  | fail
deriving DecidableEq

structure Outcome (Core Sem : Type) where
  event : Option (Event Core Sem)
  core : CoreState Core Sem
  shared : Shared Core Sem

variable {Core Sem : Type} [DecidableEq Core] [DecidableEq Sem]

def CoreState.goto (l : CoreState Core Sem) (ctl : Ctl Core Sem) :
    CoreState Core Sem :=
  { l with ctl := ctl }

/-- `pc.prev = pc.curr; pc.curr = next`. -/
def PerCore.switchTo (pc : PerCore Core Sem) (next : Tcb Core) :
    PerCore Core Sem :=
  { pc with prev := pc.curr, curr := some next }

namespace Shared

variable (s : Shared Core Sem)

def lock (lock : Lock Sem) : Shared Core Sem :=
  { s with locked := Function.update s.locked lock true }

/-- `Spinlock::lock`, which gets through once the lock is free. -/
def acquire (lock : Lock Sem) : Option (Shared Core Sem) :=
  if s.locked lock then none else some (s.lock lock)

def release (lock : Lock Sem) : Shared Core Sem :=
  { s with locked := Function.update s.locked lock false }

def setCounter (sem : Sem) (value : Int) : Shared Core Sem :=
  { s with counter := Function.update s.counter sem value }

def alloc (block : Block Core) : Shared Core Sem :=
  { s with blocks := block :: s.blocks, nextId := s.nextId + 1 }

def free (block : Block Core) : Shared Core Sem :=
  { s with blocks := s.blocks.erase block }

def setCell (node : Nat) (cell : LinkedQueue.Cell Nat (Tcb Core)) :
    Shared Core Sem :=
  { s with cells := Function.update s.cells node cell }

def setSp (tcb : Tcb Core) (resume : Resume Sem) : Shared Core Sem :=
  { s with sp := Function.update s.sp tcb resume }

/-- The section of `push`. -/
def link (q : QueueId Sem) (node : Nat) : Shared Core Sem :=
  let linked := LinkedQueue.link s.cells (s.queue q) node
  { s with cells := linked.1, queue := Function.update s.queue q linked.2 }

/-- The section of `pop`, with the node it took off. -/
def unlink (q : QueueId Sem) : Option (Nat × Shared Core Sem) :=
  (LinkedQueue.unlink s.cells (s.queue q)).map fun (node, rest) =>
    (node, { s with queue := Function.update s.queue q rest })

end Shared

/-- The value an `int64_t` holds. -/
def int64 (n : Int) : Int := n.bmod (2 ^ 64)

/-- No more blocks than this fit in the arena, so an allocation beyond it
fails. -/
def maxBlocks : Nat := Heap.kArenaSize / Heap.kMinBlockSize

/-- `SpinQueue::push`. -/
def push (q : QueueId Sem) (value : Tcb Core) (site : PushSite Sem) :
    Ctl Core Sem :=
  .heapWait (.newNode q value site)

/-- `scheduler::schedule`. -/
def schedule (tcb : Tcb Core) (site : PushSite Sem) : Ctl Core Sem :=
  push .ready tcb site

/-- What follows a `push`. -/
def pushReturn : PushSite Sem → Ctl Core Sem
  | .go => .client
  | .up sem => .upUnlock sem
  | .deferred => .after .unlock
  | .reschedule => .after .rescheduled

/-- What follows a `pop` that found the queue empty: the idle loop asks
again, and `up` asserts that it got a value. -/
def popEmpty : PopSite Sem → Ctl Core Sem
  | .next => .popWait .next
  | .up sem => .upPanic sem

/-- A call made by the context that runs on core `c`.  The boot code of a core
has no TCB, and only calls `go` and `stop`. -/
def call (c : Core) (l : CoreState Core Sem) (s : Shared Core Sem) :
    Call Sem → Option (Outcome Core Sem)
  | .go => some ⟨none, l.goto (.heapWait .newStack), s⟩
  | .stop =>
      some ⟨l.pc.curr.map (.stop c),
        ⟨{ l.pc with toDelete := l.pc.curr }.switchTo (.idle c),
          .switchSave .stopRet⟩, s⟩
  | .yield =>
      if l.pc.curr.isNone then none
      else some ⟨none,
        ⟨{ l.pc with toReschedule := l.pc.curr }.switchTo (.idle c),
          .switchSave .yieldRet⟩, s⟩
  | .down sem =>
      if l.pc.curr.isNone then none
      else some ⟨none, l.goto (.downWait sem), s⟩
  | .up sem =>
      if l.pc.curr.isNone then none
      else some ⟨l.pc.curr.map (.callUp sem), l.goto (.upWait sem), s⟩

/-- The section of `malloc` or `free`, up to the next step of the caller. -/
def heapSection (c : Core) (l : CoreState Core Sem) (s : Shared Core Sem) :
    HeapOp Core Sem → Outcome Core Sem
  | .newStack =>
      ⟨none, l.goto (.heapWait (.newTcb s.nextId)),
        s.alloc (.stack (.thread s.nextId))⟩
  | .newTcb id =>
      ⟨some (.create (.thread id)), l.goto (schedule (.thread id) .go),
        (s.alloc (.tcb (.thread id))).setSp (.thread id) .threadEntry⟩
  | .newNode q value site =>
      ⟨none, l.goto (.pushWait q s.nextId value site),
        (s.alloc (.node s.nextId)).setCell s.nextId ⟨value, none⟩⟩
  | .deleteNode node value .next =>
      ⟨none, ⟨l.pc.switchTo value, .switchSave .idleAfter⟩,
        s.free (.node node)⟩
  | .deleteNode node value (.up sem) =>
      ⟨none, l.goto (schedule value (.up sem)), s.free (.node node)⟩
  | .deleteStack tcb =>
      ⟨some (.freeStack c tcb), l.goto (.heapWait (.deleteTcb tcb)),
        s.free (.stack tcb)⟩
  | .deleteTcb tcb =>
      ⟨some (.freeTcb c tcb), l.goto (.after .deleted), s.free (.tcb tcb)⟩

/-- Where `context_switch` continues after it has loaded a stack pointer. -/
def resume (c : Core) (l : CoreState Core Sem) :
    Resume Sem → CoreState Core Sem
  | .idleEntry => ⟨{ l.pc with curr := some (.idle c) }, .popWait .next⟩
  | .idleAfter => l.goto (.after .toDelete)
  | .threadEntry => l.goto .client
  | .yieldRet => l.goto .client
  | .downRet sem => l.goto (.downReturn sem)
  | .stopRet => l.goto .unreachable

/-- The idle loop behind its `switch_to`. -/
def idleLoop (l : CoreState Core Sem) (s : Shared Core Sem) :
    Stage → Outcome Core Sem
  | .toDelete =>
      match l.pc.toDelete with
      | none => ⟨none, l.goto (.after .toQueue), s⟩
      | some tcb => ⟨none, l.goto (.heapWait (.deleteStack tcb)), s⟩
  | .deleted =>
      ⟨none, ⟨{ l.pc with toDelete := none }, .after .toQueue⟩, s⟩
  | .toQueue =>
      match l.pc.toQueue, l.pc.toAddTo, l.pc.toUnlock with
      | none, _, _ => ⟨none, l.goto (.after .toReschedule), s⟩
      | some tcb, some sem, some _ =>
          ⟨none, l.goto (push (.waiting sem) tcb .deferred), s⟩
      | some _, _, _ => ⟨none, l.goto .idlePanic, s⟩
  | .unlock =>
      match l.pc.toUnlock with
      | none => ⟨none, l.goto .idlePanic, s⟩
      | some sem => ⟨none, l.goto (.after .queued), s.release (.sem sem)⟩
  | .queued =>
      ⟨none,
        ⟨{ l.pc with toQueue := none, toAddTo := none, toUnlock := none },
          .after .toReschedule⟩, s⟩
  | .toReschedule =>
      match l.pc.toReschedule with
      | none => ⟨none, l.goto (.popWait .next), s⟩
      | some tcb => ⟨none, l.goto (schedule tcb .reschedule), s⟩
  | .rescheduled =>
      ⟨none, ⟨{ l.pc with toReschedule := none }, .popWait .next⟩, s⟩

/-- Takes a spinlock and goes on to the section behind it. -/
def spin (l : CoreState Core Sem) (s : Shared Core Sem) (lock : Lock Sem)
    (ctl : Ctl Core Sem) : Option (Outcome Core Sem) :=
  (s.acquire lock).map fun s => ⟨none, l.goto ctl, s⟩

/-- A core goes on with the code it is in. -/
def run (c : Core) (l : CoreState Core Sem) (s : Shared Core Sem) :
    Option (Outcome Core Sem) :=
  match l.ctl with
  | .client | .outOfMemory _ | .upPanic _ | .idlePanic | .unreachable => none
  | .heapWait op => spin l s .heap (.heapHold op)
  | .heapHold op =>
      if op.allocates ∧ maxBlocks ≤ s.blocks.length then none
      else some (heapSection c l (s.release .heap) op)
  | .pushWait q node value site =>
      spin l s (.queue q) (.pushHold q node value site)
  | .pushHold q node value site =>
      some ⟨some (.link q value), l.goto (pushReturn site),
        (s.link q node).release (.queue q)⟩
  | .popWait site => spin l s (.queue site.queue) (.popHold site)
  | .popHold site =>
      match s.unlink site.queue with
      | none =>
          some ⟨none, l.goto (popEmpty site), s.release (.queue site.queue)⟩
      | some (node, rest) =>
          let value := (s.cells node).value
          some ⟨l.pc.curr.map fun caller => .unlink caller site.queue value,
            l.goto (.heapWait (.deleteNode node value site)),
            rest.release (.queue site.queue)⟩
  | .downWait sem => spin l s (.sem sem) (.downHold sem)
  | .downHold sem =>
      let s := s.setCounter sem (int64 (s.counter sem - 1))
      if s.counter sem < 0 then
        some ⟨l.pc.curr.map (.block sem),
          ⟨{ l.pc with
              toQueue := l.pc.curr, toAddTo := some sem
              toUnlock := some sem }.switchTo (.idle c),
            .switchSave (.downRet sem)⟩, s⟩
      else some ⟨l.pc.curr.map (.pass sem), l.goto (.downUnlock sem), s⟩
  | .downUnlock sem =>
      some ⟨l.pc.curr.map (.downRet sem), l.goto .client,
        s.release (.sem sem)⟩
  | .downReturn sem =>
      some ⟨l.pc.curr.map (.downRet sem), l.goto .client, s⟩
  | .upWait sem => spin l s (.sem sem) (.upHold sem)
  | .upHold sem =>
      let wakes := decide (s.counter sem < 0)
      some ⟨l.pc.curr.map fun caller => .up sem caller wakes,
        l.goto (if wakes then .popWait (.up sem) else .upUnlock sem),
        s.setCounter sem (int64 (s.counter sem + 1))⟩
  | .upUnlock sem => some ⟨none, l.goto .client, s.release (.sem sem)⟩
  | .switchSave resume =>
      match l.pc.prev with
      | none => some ⟨none, l.goto .switchLoad, s⟩
      | some tcb =>
          some ⟨some (.save c tcb), l.goto .switchLoad, s.setSp tcb resume⟩
  | .switchLoad =>
      l.pc.curr.map fun tcb =>
        ⟨some (.load c tcb), Threads.resume c l (s.sp tcb), s⟩
  | .after stage => some (idleLoop l s stage)

def coreStep (c : Core) (action : Action Sem) (l : CoreState Core Sem)
    (s : Shared Core Sem) : Option (Outcome Core Sem) :=
  match action, l.ctl with
  | .call op, .client => Threads.call c l s op
  | .call _, _ => none
  | .run, _ => run c l s
  | .fail, .heapHold op =>
      if op.allocates then
        some ⟨none, l.goto (.outOfMemory op), s.release .heap⟩
      else none
  | .fail, _ => none

/-- One step of the machine, taken by core `c`. -/
def step (c : Core) (action : Action Sem) (m : Machine Core Sem) :
    Option (Option (Event Core Sem) × Machine Core Sem) :=
  (coreStep c action (m.cores c) m.shared).map fun out =>
    (out.event, ⟨Function.update m.cores c out.core, out.shared⟩)

/-- The machine after `percore::init`, with semaphores constructed with the
counts `cnt`: every core is in its boot code. -/
def initial (cnt : Sem → Int) : Machine Core Sem where
  cores := fun _ => ⟨⟨none, none, none, none, none, none, none⟩, .client⟩
  shared :=
    { sp := fun
        | .idle _ => .idleEntry
        | .thread _ => .threadEntry
      locked := fun _ => false
      cells := fun _ => ⟨.thread 0, none⟩
      queue := fun _ => .empty
      counter := cnt
      nextId := 0
      blocks := [] }

/-- The runs of the machine with the events they have shown, every step of
which meets `ok`. -/
inductive Run (cnt : Sem → Int)
    (ok : List (Event Core Sem) → Machine Core Sem → Core → Action Sem → Prop) :
    List (Event Core Sem) → Machine Core Sem → Prop
  | boot : Run cnt ok [] (initial cnt)
  | step {past : List (Event Core Sem)} {m m' : Machine Core Sem} {c : Core}
      {action : Action Sem} {event : Option (Event Core Sem)}
      (before : Run cnt ok past m) (meets : ok past m c action)
      (step : step c action m = some (event, m')) :
      Run cnt ok (past ++ event.toList) m'

/-- Runs under no condition. -/
abbrev AnyRun (cnt : Sem → Int) :
    List (Event Core Sem) → Machine Core Sem → Prop :=
  Run cnt fun _ _ _ _ => True

/-- Carries out a schedule: who steps, and how. -/
def follow (m : Machine Core Sem) :
    List (Core × Action Sem) → Option (List (Event Core Sem) × Machine Core Sem)
  | [] => some ([], m)
  | (c, action) :: rest =>
      (step c action m).bind fun (event, m') =>
        (follow m' rest).map fun (events, last) => (event.toList ++ events, last)

/-- Every step of the schedule meets `ok`. -/
def Obeys
    (ok : List (Event Core Sem) → Machine Core Sem → Core → Action Sem → Prop)
    (past : List (Event Core Sem)) (m : Machine Core Sem) :
    List (Core × Action Sem) → Prop
  | [] => True
  | (c, action) :: rest =>
      ok past m c action ∧
        (step c action m).elim True fun (event, m') =>
          Obeys ok (past ++ event.toList) m' rest

instance decidableObeys
    {ok : List (Event Core Sem) → Machine Core Sem → Core → Action Sem → Prop}
    [∀ past m c action, Decidable (ok past m c action)] :
    (past : List (Event Core Sem)) → (m : Machine Core Sem) →
    (schedule : List (Core × Action Sem)) → Decidable (Obeys ok past m schedule)
  | _, _, [] => isTrue trivial
  | past, m, (c, action) :: rest =>
      have : Decidable ((step c action m).elim True fun (event, m') =>
          Obeys ok (past ++ event.toList) m' rest) :=
        match step c action m with
        | none => isTrue trivial
        | some (event, m') => decidableObeys (past ++ event.toList) m' rest
      inferInstanceAs (Decidable (_ ∧ _))

theorem Run.follow {cnt : Sem → Int}
    {ok : List (Event Core Sem) → Machine Core Sem → Core → Action Sem → Prop}
    {past : List (Event Core Sem)} {m : Machine Core Sem}
    (h : Run cnt ok past m) {schedule : List (Core × Action Sem)}
    (hobeys : Obeys ok past m schedule) {events : List (Event Core Sem)}
    {last : Machine Core Sem}
    (hfollow : Threads.follow m schedule = some (events, last)) :
    Run cnt ok (past ++ events) last := by
  induction schedule generalizing past m events last with
  | nil =>
      cases hfollow
      rw [List.append_nil]
      exact h
  | cons first rest ih =>
      obtain ⟨c, action⟩ := first
      obtain ⟨hmeets, hrest⟩ := hobeys
      simp only [Threads.follow, Option.bind_eq_some_iff,
        Option.map_eq_some_iff] at hfollow
      obtain ⟨⟨event, m'⟩, hstep, ⟨later, last'⟩, hlater, heq⟩ := hfollow
      cases heq
      rw [hstep] at hrest
      rw [← List.append_assoc]
      exact ih (h.step hmeets hstep) hrest hlater

theorem obeys_any (past : List (Event Core Sem)) (m : Machine Core Sem)
    (schedule : List (Core × Action Sem)) :
    Obeys (fun _ _ _ _ => True) past m schedule := by
  induction schedule generalizing past m with
  | nil => trivial
  | cons first rest ih =>
      refine ⟨trivial, ?_⟩
      cases step first.1 first.2 m with
      | none => trivial
      | some result => exact ih _ _

theorem AnyRun.follow {cnt : Sem → Int} {past : List (Event Core Sem)}
    {m : Machine Core Sem} (h : AnyRun cnt past m)
    {schedule : List (Core × Action Sem)} {events : List (Event Core Sem)}
    {last : Machine Core Sem}
    (hfollow : Threads.follow m schedule = some (events, last)) :
    AnyRun cnt (past ++ events) last :=
  Run.follow h (obeys_any past m schedule) hfollow

end Threads

end IntroOs
