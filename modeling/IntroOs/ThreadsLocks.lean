/-
The spinlocks of the thread system: every lock is released by the core that
acquired it, the lock of a blocking `down` by that core's idle loop, and cores
never wait for each other in a circle.
-/
import IntroOs.SpinLocks
import IntroOs.ThreadsSaved

namespace IntroOs

namespace Threads

variable {Core Sem : Type} [DecidableEq Core] [DecidableEq Sem]

open SpinLocks (Op holders SpinsOn)

/-- The lock a core spins on. -/
def Ctl.waitsFor : Ctl Core Sem → Option (Lock Sem)
  | .heapWait _ => some .heap
  | .pushWait q _ _ _ => some (.queue q)
  | .popWait site => some (.queue site.queue)
  | .downWait sem | .upWait sem => some (.sem sem)
  | _ => none

/-- The lock whose section a core leaves with its next step. -/
def CoreState.releases (l : CoreState Core Sem) : Option (Lock Sem) :=
  match l.ctl with
  | .heapHold _ => some .heap
  | .pushHold q _ _ _ => some (.queue q)
  | .popHold site => some (.queue site.queue)
  | .downUnlock sem | .upUnlock sem => some (.sem sem)
  | .after .unlock => l.pc.toUnlock.map .sem
  | _ => none

/-- The lock operation of the next step of a core. -/
def CoreState.lockOp (l : CoreState Core Sem) : Option (Op (Lock Sem)) :=
  (l.ctl.waitsFor.map .acquire).or (l.releases.map .release)

/-- A step of a run: the core that took it, where that core was, and what the
step showed. -/
structure Entry (Core Sem : Type) where
  core : Core
  before : CoreState Core Sem
  event : Option (Event Core Sem)

/-- Runs with the steps they consist of. -/
inductive Traced (cnt : Sem → Int) :
    List (Entry Core Sem) → Machine Core Sem → Prop
  | boot : Traced cnt [] (initial cnt)
  | step {trace : List (Entry Core Sem)} {m m' : Machine Core Sem} {c : Core}
      {action : Action Sem} {event : Option (Event Core Sem)}
      (before : Traced cnt trace m)
      (step : step c action m = some (event, m')) :
      Traced cnt (trace ++ [⟨c, m.cores c, event⟩]) m'

def Entry.logged (entry : Entry Core Sem) :
    Option (Core × Op (Lock Sem)) :=
  entry.before.lockOp.map fun op => (entry.core, op)

/-- The lock operations of a run. -/
def lockLog (trace : List (Entry Core Sem)) : List (Core × Op (Lock Sem)) :=
  trace.filterMap Entry.logged

def eventsOf (trace : List (Entry Core Sem)) : List (Event Core Sem) :=
  trace.filterMap Entry.event

theorem AnyRun.traced {cnt : Sem → Int} {past : List (Event Core Sem)}
    {m : Machine Core Sem} (h : AnyRun cnt past m) :
    ∃ trace, Traced cnt trace m ∧ eventsOf trace = past := by
  induction h with
  | boot => exact ⟨[], .boot, rfl⟩
  | @step past m m' c action event _ _ hstep ih =>
      obtain ⟨trace, htraced, hevents⟩ := ih
      refine ⟨_, htraced.step hstep, ?_⟩
      rw [eventsOf, List.filterMap_append, ← eventsOf, hevents]
      cases event <;> rfl

section Step

variable {m : Machine Core Sem} {items : QueueId Sem → List Nat} {c : Core}
  {s : Shared Core Sem} {l : CoreState Core Sem} {out : Outcome Core Sem}
  {trace : List (Entry Core Sem)} {idleSp : Resume Sem}

section

omit [DecidableEq Core] [DecidableEq Sem]

theorem Spins.lockOp {pc : PerCore Core Sem} {ctl ctl' : Ctl Core Sem}
    {lock : Lock Sem} (h : Spins ctl lock ctl') :
    (⟨pc, ctl⟩ : CoreState Core Sem).lockOp = some (.acquire lock) := by
  cases h <;> rfl

theorem Silent.lockOp {l' : CoreState Core Sem} (h : Silent c l l') :
    l.lockOp = none := by
  cases h <;> rfl

theorem lock_mem_of_releases (hok : CtlOk c idleSp l.pc l.ctl)
    {lock : Lock Sem} (h : l.releases = some lock) : .lock lock ∈ l.holds := by
  obtain ⟨pc, ctl⟩ := l
  cases ctl with
  | after stage =>
      cases stage with
      | unlock =>
          obtain ⟨id, sem, rfl⟩ := hok
          cases h
          simp [CoreState.holds, PerCore.slots, asks, Ctl.done, Done.unlockHolds]
      | _ => cases h
  | heapHold _ => cases h; simp [CoreState.holds, Ctl.holds]
  | pushHold _ _ _ _ => cases h; simp [CoreState.holds, Ctl.holds]
  | popHold _ => cases h; simp [CoreState.holds, Ctl.holds]
  | downUnlock _ => cases h; simp [CoreState.holds, Ctl.holds]
  | upUnlock _ => cases h; simp [CoreState.holds, Ctl.holds]
  | _ => cases h

theorem releases_of_lockOp {lock : Lock Sem}
    (h : l.lockOp = some (.release lock)) : l.releases = some lock := by
  unfold CoreState.lockOp at h
  cases hwaits : l.ctl.waitsFor with
  | some other =>
      rw [hwaits] at h
      cases h
  | none =>
      rw [hwaits, Option.map_none, Option.none_or] at h
      simpa using h

theorem lock_not_mem_queueHolds
    (cells : LinkedQueue.Cells Nat (Tcb Core)) (nodes : List Nat)
    (lock : Lock Sem) : .lock lock ∉ (queueHolds cells nodes) := by
  induction nodes with
  | nil => exact Multiset.notMem_zero _
  | cons node rest ih =>
      intro hmem
      simp only [queueHolds, Multiset.mem_add, Multiset.mem_singleton,
        reduceCtorEq, false_or] at hmem
      refine hmem.elim (fun hwhole => ?_) ih
      cases hvalue : (cells node).value <;> simp [hvalue, whole] at hwhole

theorem lockLog_concat (trace : List (Entry Core Sem)) (c : Core)
    (l : CoreState Core Sem) (event : Option (Event Core Sem)) :
    lockLog (trace ++ [⟨c, l, event⟩]) =
      lockLog trace ++ (l.lockOp.map fun op => (c, op)).toList := by
  rw [lockLog, List.filterMap_append, ← lockLog]
  cases hop : l.lockOp <;> simp [Entry.logged, hop]

end

/-- The lock words change as the operation says, and an acquired lock was
free. -/
theorem Move.locked_eq (h : Move c s l out) :
    out.shared.locked = l.lockOp.elim s.locked (Op.apply s.locked) ∧
      ∀ lock, l.lockOp = some (.acquire lock) → s.locked lock = false := by
  cases h with
  | silent hsilent => simp [hsilent.lockOp]
  | spin hspins hfree =>
      simp [hspins.lockOp, Op.apply, Shared.lock, hfree]
  | @unlink pc site caller node rest _ hfound =>
      have hlocked : rest.locked = s.locked := by
        unfold Shared.unlink at hfound
        obtain ⟨found, -, heq⟩ := Option.map_eq_some_iff.mp hfound
        cases heq
        rfl
      refine ⟨?_, fun lock hop => ?_⟩
      · change Function.update rest.locked _ _ = _
        rw [hlocked]
        rfl
      · cases hop
  | _ =>
      refine ⟨rfl, fun lock hop => ?_⟩
      cases hop

/-- The log agrees with the word of the lock and with who holds it. -/
structure Tracked (log : List (Core × Op (Lock Sem))) (m : Machine Core Sem)
    (lock : Lock Sem) : Prop where
  isFree : m.shared.locked lock = false → holders log lock = []
  holder : ∀ c, .lock lock ∈ (m.cores c).holds → holders log lock = [c]

structure LockInv (trace : List (Entry Core Sem)) (m : Machine Core Sem) :
    Prop where
  tracked : ∀ lock, Tracked (lockLog trace) m lock
  law : History.Along SpinLocks.Law (lockLog trace)

/-- A lock that is taken is held by one core. -/
theorem Inv.holder_of_locked (h : Inv m items) {lock : Lock Sem}
    (hlocked : m.shared.locked lock = true) :
    ∃ c, .lock lock ∈ (m.cores c).holds := by
  obtain ⟨home, hmem⟩ := h.books.exists_home
    (show m.shared.amount (.lock lock) = 1 by simp [Shared.amount, hlocked])
  cases home with
  | core c => exact ⟨c, hmem⟩
  | queue q => exact absurd hmem (lock_not_mem_queueHolds _ _ lock)

theorem Inv.locked_of_holds (h : Inv m items) {lock : Lock Sem}
    (hmem : .lock lock ∈ (m.cores c).holds) : m.shared.locked lock = true := by
  have hone := h.amount_of_held c hmem
  by_contra hne
  simp [Shared.amount, hne] at hone

theorem Inv.holder_unique (h : Inv m items) {lock : Lock Sem} {c' : Core}
    (hmem : .lock lock ∈ (m.cores c).holds)
    (hmem' : .lock lock ∈ (m.cores c').holds) : c = c' := by
  have hhome := h.books.home_unique (a := .core c) (b := .core c') hmem hmem'
  cases hhome
  rfl

theorem Tracked.other {log : List (Core × Op (Lock Sem))} {lock : Lock Sem}
    (h : Tracked log m lock) (hinv : Inv m items)
    (hmove : Move c m.shared (m.cores c) out)
    (hlocked : out.shared.locked lock = m.shared.locked lock) :
    Tracked log (m.after c out) lock := by
  have hafter := hinv.move hmove
  refine ⟨fun hfree => h.isFree (hlocked ▸ hfree), fun c' hmem => ?_⟩
  have htaken : out.shared.locked lock = true := hafter.locked_of_holds hmem
  obtain ⟨first, hfirst⟩ := hinv.holder_of_locked (hlocked ▸ htaken)
  by_cases hcore : c' = c
  · have heq : first = c := by
      by_contra hne
      refine hne ((hafter.holder_unique ?_ hmem).trans hcore)
      rw [after_core_of_ne hne]
      exact hfirst
    rw [hcore, ← heq]
    exact h.holder first hfirst
  · rw [after_core_of_ne hcore] at hmem
    exact h.holder c' hmem

theorem Tracked.acquire {log : List (Core × Op (Lock Sem))} {lock : Lock Sem}
    (h : Tracked log m lock) (hinv : Inv m items)
    (hfree : m.shared.locked lock = false)
    (hlocked : out.shared.locked lock = true) :
    Tracked (log ++ [(c, .acquire lock)]) (m.after c out) lock := by
  refine ⟨fun hfree' => ?_, fun c' hmem => ?_⟩
  · change out.shared.locked lock = false at hfree'
    rw [hlocked] at hfree'
    cases hfree'
  · have hcore : c' = c := by
      by_contra hne
      rw [after_core_of_ne hne] at hmem
      have htaken := hinv.locked_of_holds hmem
      rw [hfree] at htaken
      cases htaken
    rw [hcore]
    exact SpinLocks.holders_acquire (h.isFree hfree)

theorem Tracked.release {log : List (Core × Op (Lock Sem))} {lock : Lock Sem}
    (h : Tracked log m lock) (hinv : Inv m items)
    (hmove : Move c m.shared (m.cores c) out)
    (hheld : .lock lock ∈ (m.cores c).holds)
    (hlocked : out.shared.locked lock = false) :
    Tracked (log ++ [(c, .release lock)]) (m.after c out) lock := by
  refine ⟨fun _ => SpinLocks.holders_release (h.holder c hheld),
    fun c' hmem => ?_⟩
  have htaken : out.shared.locked lock = true :=
    (hinv.move hmove).locked_of_holds hmem
  rw [hlocked] at htaken
  cases htaken

/-- What an operation does to each lock. -/
theorem LockInv.tracked_step (h : LockInv trace m) (hinv : Inv m items)
    (hmove : Move c m.shared (m.cores c) out) {op : Op (Lock Sem)}
    (hop : (m.cores c).lockOp = some op) (lock : Lock Sem) :
    Tracked (lockLog trace ++ [(c, op)]) (m.after c out) lock := by
  obtain ⟨hlocked, hfree⟩ := hmove.locked_eq
  rw [hop, Option.elim_some] at hlocked
  by_cases hacquire : op = .acquire lock
  · subst hacquire
    refine (h.tracked lock).acquire hinv (hfree lock hop) ?_
    rw [hlocked]
    exact Function.update_self _ _ _
  · by_cases hrelease : op = .release lock
    · subst hrelease
      refine (h.tracked lock).release hinv hmove ?_ ?_
      · exact lock_mem_of_releases (hinv.ctl c) (releases_of_lockOp hop)
      · rw [hlocked]
        exact Function.update_self _ _ _
    · obtain ⟨hholders, happly⟩ := SpinLocks.unconcerned (lockLog trace) c
        m.shared.locked hacquire hrelease
      have hother := (h.tracked lock).other hinv hmove
        ((congrFun hlocked lock).trans happly)
      exact ⟨hholders ▸ hother.isFree, hholders ▸ hother.holder⟩

theorem LockInv.law_step (h : LockInv trace m) (hinv : Inv m items)
    (hmove : Move c m.shared (m.cores c) out) {op : Op (Lock Sem)}
    (hop : (m.cores c).lockOp = some op) :
    SpinLocks.Law (lockLog trace) (c, op) := by
  cases op with
  | acquire lock => exact (h.tracked lock).isFree (hmove.locked_eq.2 lock hop)
  | release lock =>
      exact (h.tracked lock).holder c
        (lock_mem_of_releases (hinv.ctl c) (releases_of_lockOp hop))

theorem LockInv.move (h : LockInv trace m) (hinv : Inv m items)
    (hmove : Move c m.shared (m.cores c) out) :
    LockInv (trace ++ [⟨c, m.cores c, out.event⟩]) (m.after c out) := by
  have hlog := lockLog_concat trace c (m.cores c) out.event
  cases hop : (m.cores c).lockOp with
  | none =>
      have hlocked := hmove.locked_eq.1
      rw [hop, Option.elim_none] at hlocked
      rw [hop, Option.map_none, Option.toList_none, List.append_nil] at hlog
      refine ⟨fun lock => ?_, hlog ▸ h.law⟩
      rw [hlog]
      exact (h.tracked lock).other hinv hmove (congrFun hlocked lock)
  | some op =>
      rw [hop, Option.map_some, Option.toList_some] at hlog
      constructor
      · rw [hlog]
        exact h.tracked_step hinv hmove hop
      · rw [hlog]
        exact h.law.concat (h.law_step hinv hmove hop)

theorem lockInv_initial (cnt : Sem → Int) :
    LockInv [] (initial cnt : Machine Core Sem) where
  tracked := fun lock => ⟨fun _ => rfl, fun c hmem => by
    simp [initial, CoreState.holds, PerCore.slots, Ctl.holds] at hmem⟩
  law := History.along_nil

/-- The locks of the heap and of the queues, inside which no other lock is
taken. -/
def Lock.inner : Lock Sem → Prop
  | .sem _ => False
  | _ => True

/-- How many locks a core may still be kept from: one in a semaphore's queue
or the heap, one more on the way to the semaphore. -/
def Ctl.rank (ctl : Ctl Core Sem) : Nat :=
  match ctl.waitsFor with
  | none => 0
  | some (.sem _) => 2
  | some _ => 1

section

omit [DecidableEq Sem]

theorem PopSite.inner_not_mem {site : PopSite Sem} {lock : Lock Sem}
    (hinner : lock.inner) : .lock lock ∉ site.holds := by
  cases site with
  | next => exact Multiset.notMem_zero _
  | up sem =>
      simp only [PopSite.holds, Multiset.mem_singleton, Resource.lock.injEq]
      rintro rfl
      exact hinner

end

section

omit [DecidableEq Core] [DecidableEq Sem]

theorem lock_not_mem_whole (t : Tcb Core) (lock : Lock Sem) :
    .lock lock ∉ whole t := by
  cases t <;> simp [whole]

/-- A core has a lock from the section it is in, or from the hand-off it has
to carry out. -/
theorem lock_mem_holds {lock : Lock Sem} (h : .lock lock ∈ l.holds) :
    .lock lock ∈ l.ctl.holds ∨
      ∃ sem, lock = .sem sem ∧ l.pc.toUnlock = some sem := by
  have hslot : ∀ (slot : Option (Tcb Core))
      (f : Tcb Core → Multiset (Resource Sem)),
      (∀ t, .lock lock ∉ f t) → .lock lock ∉ slot.elim 0 f := by
    intro slot f hnot
    cases slot with
    | none => exact Multiset.notMem_zero _
    | some t => exact hnot t
  have hwhole := fun t : Tcb Core => lock_not_mem_whole t lock
  simp only [CoreState.holds, PerCore.slots, Multiset.mem_add] at h
  rcases h with (hcurr | ((hdelete | hreschedule) | hqueue) | hunlock) | hctl
  · exact absurd hcurr (hslot _ _ hwhole)
  · refine absurd hdelete (hslot _ _ fun t => ?_)
    cases l.ctl.done with
    | stackFreed => cases t <;> simp [Done.deleteHolds]
    | deleted => exact Multiset.notMem_zero _
    | _ => exact hwhole t
  · refine absurd hreschedule (hslot _ _ fun t => ?_)
    cases l.ctl.done with
    | rescheduled => exact Multiset.notMem_zero _
    | _ => exact hwhole t
  · refine absurd hqueue (hslot _ _ fun t => ?_)
    cases l.ctl.done with
    | linked => exact Multiset.notMem_zero _
    | unlocked => exact Multiset.notMem_zero _
    | _ => exact hwhole t
  · cases htoUnlock : l.pc.toUnlock with
    | none =>
        rw [htoUnlock] at hunlock
        exact absurd hunlock (Multiset.notMem_zero _)
    | some sem =>
        rw [htoUnlock, Option.elim_some] at hunlock
        refine .inr ⟨sem, ?_, rfl⟩
        cases hdone : l.ctl.done with
        | unlocked =>
            rw [hdone] at hunlock
            exact absurd hunlock (Multiset.notMem_zero _)
        | _ =>
            rw [hdone] at hunlock
            simpa [Done.unlockHolds] using hunlock
  · exact .inl hctl

theorem PushSite.inner_not_mem {value : Tcb Core} {site : PushSite Sem}
    {lock : Lock Sem} (hinner : lock.inner) :
    .lock lock ∉ site.holds value := by
  have hwhole := lock_not_mem_whole value lock
  cases site with
  | up sem =>
      simp only [PushSite.holds, Multiset.mem_add, hwhole, false_or,
        Multiset.mem_singleton, Resource.lock.injEq]
      rintro rfl
      exact hinner
  | go => exact hwhole
  | _ => exact Multiset.notMem_zero _

theorem HeapOp.inner_not_mem {op : HeapOp Core Sem} {lock : Lock Sem}
    (hinner : lock.inner) : .lock lock ∉ op.holds := by
  cases op with
  | newNode q value site => exact PushSite.inner_not_mem hinner
  | deleteNode node value site =>
      simp [HeapOp.holds, lock_not_mem_whole, PopSite.inner_not_mem hinner]
  | newTcb id => simp [HeapOp.holds]
  | _ => exact Multiset.notMem_zero _

/-- In a section of the heap or of a queue a core waits for nothing. -/
theorem waitsFor_of_inner {lock : Lock Sem} (h : .lock lock ∈ l.holds)
    (hinner : lock.inner) : l.ctl.waitsFor = none := by
  rcases lock_mem_holds h with hctl | ⟨sem, rfl, -⟩
  · cases hcase : l.ctl with
    | heapWait op =>
        rw [hcase] at hctl
        exact absurd hctl (HeapOp.inner_not_mem hinner)
    | pushWait q node value site =>
        rw [hcase] at hctl
        simp [Ctl.holds, PushSite.inner_not_mem hinner] at hctl
    | popWait site =>
        rw [hcase] at hctl
        exact absurd hctl (PopSite.inner_not_mem hinner)
    | downWait sem =>
        rw [hcase] at hctl
        exact absurd hctl (Multiset.notMem_zero _)
    | upWait sem =>
        rw [hcase] at hctl
        exact absurd hctl (Multiset.notMem_zero _)
    | _ => rfl
  · exact hinner.elim

/-- A core that holds the lock of a semaphore waits for no other such lock. -/
theorem waitsFor_of_sem {sem sem' : Sem} (hok : CtlOk c idleSp l.pc l.ctl)
    (h : .lock (.sem sem) ∈ l.holds) : l.ctl.waitsFor ≠ some (.sem sem') := by
  intro hwaits
  have hthread : OnThread idleSp l.pc ∧ l.ctl.holds = 0 := by
    cases hcase : l.ctl with
    | downWait _ => exact ⟨by rwa [hcase] at hok, rfl⟩
    | upWait _ => exact ⟨by rwa [hcase] at hok, rfl⟩
    | _ =>
        rw [hcase] at hwaits
        cases hwaits
  obtain ⟨⟨-, prev, id, hpc⟩, hholds⟩ := hthread
  rcases lock_mem_holds h with hctl | ⟨sem, -, hslot⟩
  · rw [hholds] at hctl
    exact Multiset.notMem_zero _ hctl
  · rw [hpc] at hslot
    cases hslot

/-- A thread's own code and the idle loop's wait for work hold no lock. -/
theorem holds_no_lock (hok : CtlOk c idleSp l.pc l.ctl)
    (hctl : l.ctl = .client ∨ l.ctl = .popWait .next) (lock : Lock Sem) :
    .lock lock ∉ l.holds := by
  have hclear : (∃ prev curr, l.pc = clear prev curr) ∧ l.ctl.holds = 0 := by
    rcases hctl with hctl | hctl
    · rw [hctl] at hok
      exact ⟨Fore.isClear hok, by rw [hctl]; rfl⟩
    · rw [hctl] at hok
      obtain ⟨prev, hpc⟩ := hok
      exact ⟨⟨prev, _, hpc⟩, by rw [hctl]; rfl⟩
  obtain ⟨⟨prev, curr, hpc⟩, hholds⟩ := hclear
  intro h
  rcases lock_mem_holds h with hmem | ⟨sem, -, hslot⟩
  · rw [hholds] at hmem
    exact Multiset.notMem_zero _ hmem
  · rw [hpc] at hslot
    cases hslot

end

/-- Along a wait the rank falls. -/
theorem Inv.rank_lt (h : Inv m items) {c' : Core} {lock : Lock Sem}
    (hwaits : (m.cores c).ctl.waitsFor = some lock)
    (hmem : .lock lock ∈ (m.cores c').holds) :
    (m.cores c').ctl.rank < (m.cores c).ctl.rank := by
  cases lock with
  | sem sem =>
      have hrank : (m.cores c).ctl.rank = 2 := by
        simp only [Ctl.rank, hwaits]
      rw [hrank, Ctl.rank]
      split
      · omega
      · next sem' hsem => exact absurd hsem (waitsFor_of_sem (h.ctl c') hmem)
      · omega
  | heap =>
      rw [Ctl.rank, Ctl.rank, hwaits, waitsFor_of_inner hmem trivial]
      exact Nat.one_pos
  | queue q =>
      rw [Ctl.rank, Ctl.rank, hwaits, waitsFor_of_inner hmem trivial]
      exact Nat.one_pos

/-- Nobody releases the lock of `sem`, and `c` dispatches no thread. -/
def Untouched (c : Core) (sem : Sem) (steps : List (Entry Core Sem)) : Prop :=
  ∀ entry ∈ steps, entry.before.lockOp ≠ some (.release (.sem sem)) ∧
    ∀ id, entry.event ≠ some (.load c (.thread id))

/-- The steps after a `down` of `t` on core `c` has blocked: the idle loop of
`c` puts the thread in the queue and then releases the lock, which nobody does
before, and dispatches no thread meanwhile. -/
inductive HandOff (c : Core) (sem : Sem) (t : Tcb Core)
    (l : CoreState Core Sem) : List (Entry Core Sem) → Prop
  | blocked {steps : List (Entry Core Sem)} (wait : Untouched c sem steps)
      (slots : l.pc = asks c t (.downRet sem)) (done : l.ctl.done = .nothing) :
      HandOff c sem t l steps
  | queued {first second : List (Entry Core Sem)} {pusher : CoreState Core Sem}
      (wait : Untouched c sem first) (wait' : Untouched c sem second)
      (at_unlock : l = ⟨asks c t (.downRet sem), .after .unlock⟩) :
      HandOff c sem t l
        (first ++ ⟨c, pusher, some (.link (.waiting sem) t)⟩ :: second)
  | released {first second rest : List (Entry Core Sem)}
      {pusher : CoreState Core Sem} (wait : Untouched c sem first)
      (wait' : Untouched c sem second) :
      HandOff c sem t l
        (first ++ ⟨c, pusher, some (.link (.waiting sem) t)⟩ :: second ++
          ⟨c, ⟨asks c t (.downRet sem), .after .unlock⟩, none⟩ :: rest)

/-- What a core with a thread to put in the queue can do. -/
theorem Move.deferred (h : Move c s l out) (hok : CtlOk c idleSp l.pc l.ctl)
    {t : Tcb Core} {sem : Sem} (hpc : l.pc = asks c t (.downRet sem))
    (hdone : l.ctl.done = .nothing) :
    (∀ sem', l.lockOp ≠ some (.release (.sem sem'))) ∧
    (∀ id, out.event ≠ some (.load c (.thread id))) ∧
    ((out.core.pc = asks c t (.downRet sem) ∧ out.core.ctl.done = .nothing) ∨
      (out.event = some (.link (.waiting sem) t) ∧
        out.core = ⟨asks c t (.downRet sem), .after .unlock⟩)) := by
  have hleaves : Leaves (.downRet sem) := .down sem
  cases h with
  | silent hsilent =>
      cases hsilent with
      | noDelete _ => exact ⟨nofun, nofun, .inl ⟨hpc, rfl⟩⟩
      | toQueue => exact ⟨nofun, nofun, .inl ⟨hpc, rfl⟩⟩
      | noQueue hnone =>
          cases hpc
          cases hnone
      | noReschedule _ =>
          rcases hok with ⟨id, rfl⟩ | ⟨prev, rfl⟩
          · cases hpc
          · exact absurd hpc (clear_ne_asks hleaves)
      | go =>
          obtain ⟨prev, curr, rfl⟩ := Fore.isClear hok
          exact absurd hpc (clear_ne_asks hleaves)
      | queued => cases hdone
      | toDelete => cases hpc
      | deleted => cases hpc
      | toReschedule => cases hpc
      | rescheduled => cases hpc
      | _ => exact absurd hpc (clear_ne_asks hleaves)
  | spin hspins _ =>
      refine ⟨?_, nofun, .inl ⟨hpc, ?_⟩⟩
      · rw [hspins.lockOp]
        exact nofun
      · cases hspins with
        | heap op => cases op <;> first | rfl | cases hdone
        | _ => rfl
  | fail _ => exact ⟨nofun, nofun, .inl ⟨hpc, rfl⟩⟩
  | newStack _ => exact ⟨nofun, nofun, .inl ⟨hpc, rfl⟩⟩
  | newTcb _ => exact ⟨nofun, nofun, .inl ⟨hpc, rfl⟩⟩
  | newNode _ => exact ⟨nofun, nofun, .inl ⟨hpc, rfl⟩⟩
  | granted => exact ⟨nofun, nofun, .inl ⟨hpc, rfl⟩⟩
  | deleteStack => cases hpc
  | deleteTcb => cases hpc
  | @link pc q node value site =>
      cases site with
      | go =>
          obtain ⟨prev, curr, rfl⟩ := Fore.isClear hok.2.2
          exact absurd hpc (clear_ne_asks hleaves)
      | up sem =>
          obtain ⟨-, prev, id', rfl⟩ := hok.2.2
          exact absurd hpc (clear_ne_asks hleaves)
      | deferred =>
          obtain ⟨id, sem', rfl, rfl, rfl⟩ := hok
          cases hpc
          exact ⟨nofun, nofun, .inr ⟨rfl, rfl⟩⟩
      | reschedule =>
          obtain ⟨id, -, rfl, rfl⟩ := hok
          cases hpc
  | popEmpty _ =>
      obtain ⟨prev, curr, rfl⟩ := PopOk.isClear hok
      exact absurd hpc (clear_ne_asks hleaves)
  | unlink _ _ =>
      obtain ⟨prev, curr, rfl⟩ := PopOk.isClear hok
      exact absurd hpc (clear_ne_asks hleaves)
  | upUnlock =>
      obtain ⟨-, prev, id, rfl⟩ := hok
      exact absurd hpc (clear_ne_asks hleaves)
  | saveThread _ => exact ⟨nofun, nofun, .inl ⟨hpc, rfl⟩⟩
  | loadIdle _ _ => exact ⟨nofun, nofun, .inl ⟨hpc, rfl⟩⟩
  | unlock => cases hdone
  | _ => exact absurd hpc (clear_ne_asks hleaves)

theorem Move.event_of_unlock (h : Move c s l out)
    (hctl : l.ctl = .after .unlock) : out.event = none := by
  cases h with
  | silent _ => rfl
  | spin _ _ => rfl
  | unlock => rfl
  | _ => cases hctl

section

omit [DecidableEq Core] [DecidableEq Sem]

theorem Untouched.concat {sem : Sem} {steps : List (Entry Core Sem)}
    {entry : Entry Core Sem} (h : Untouched c sem steps)
    (hop : entry.before.lockOp ≠ some (.release (.sem sem)))
    (hload : ∀ id, entry.event ≠ some (.load c (.thread id))) :
    Untouched c sem (steps ++ [entry]) := by
  intro other hother
  rcases List.mem_append.mp hother with hmem | hmem
  · exact h other hmem
  · rw [List.mem_singleton.mp hmem]
    exact ⟨hop, hload⟩

theorem lock_mem_of_asks {t : Tcb Core} {sem : Sem}
    (hpc : l.pc = asks c t (.downRet sem)) (hdone : l.ctl.done ≠ .unlocked) :
    .lock (.sem sem) ∈ l.holds := by
  have hmem : .lock (.sem sem) ∈
      (l.ctl.done.unlockHolds sem : Multiset (Resource Sem)) := by
    cases hcase : l.ctl.done with
    | unlocked => exact absurd hcase hdone
    | _ => exact Multiset.mem_singleton_self _
  simp [CoreState.holds, PerCore.slots, hpc, asks, hmem]

end

/-- While a core holds the lock, the steps of the others leave it alone. -/
theorem Untouched.others {sem : Sem} {steps : List (Entry Core Sem)}
    {c' : Core} (h : Untouched c sem steps) (hinv : Inv m items)
    (hmove : Move c' m.shared (m.cores c') out) (hne : c' ≠ c)
    (hheld : .lock (.sem sem) ∈ (m.cores c).holds) :
    Untouched c sem (steps ++ [⟨c', m.cores c', out.event⟩]) := by
  refine h.concat (fun hop => ?_) fun id hload => ?_
  · have hmem := lock_mem_of_releases (hinv.ctl c') (releases_of_lockOp hop)
    exact hne (hinv.holder_unique hmem hheld)
  · exact hne (hmove.load_core hload).symm

theorem HandOff.move {sem : Sem} {t : Tcb Core} {steps : List (Entry Core Sem)}
    {c' : Core} (h : HandOff c sem t (m.cores c) steps) (hinv : Inv m items)
    (hmove : Move c' m.shared (m.cores c') out) :
    HandOff c sem t ((m.after c' out).cores c)
      (steps ++ [⟨c', m.cores c', out.event⟩]) := by
  by_cases hcore : c' = c
  · subst hcore
    rw [after_core_self]
    cases h with
    | blocked hwait hslots hdone =>
        obtain ⟨hop, hload, ⟨hpc, hdone'⟩ | ⟨hevent, hcore⟩⟩ :=
          hmove.deferred (hinv.ctl c') hslots hdone
        · exact .blocked (hwait.concat (hop sem) hload) hpc hdone'
        · rw [hevent]
          exact .queued hwait (fun _ hmem => absurd hmem List.not_mem_nil) hcore
    | @queued first second pusher hwait hwait' hunlock =>
        rw [hmove.event_of_unlock (by rw [hunlock]), hunlock]
        exact .released hwait hwait'
    | @released first second rest pusher hwait hwait' =>
        rw [List.append_assoc _ (_ :: rest), List.cons_append]
        exact .released hwait hwait'
  · rw [after_core_of_ne (Ne.symm hcore)]
    cases h with
    | blocked hwait hslots hdone =>
        have hheld := lock_mem_of_asks hslots (by rw [hdone]; exact nofun)
        exact .blocked (hwait.others hinv hmove hcore hheld) hslots hdone
    | @queued first second pusher hwait hwait' hunlock =>
        have hheld : .lock (.sem sem) ∈ (m.cores c).holds :=
          lock_mem_of_asks (by rw [hunlock]) (by rw [hunlock]; exact nofun)
        rw [List.append_assoc, List.cons_append]
        exact .queued hwait (hwait'.others hinv hmove hcore hheld) hunlock
    | @released first second rest pusher hwait hwait' =>
        rw [List.append_assoc _ (_ :: rest), List.cons_append]
        exact .released hwait hwait'

/-- Right behind the step in which `down` blocks. -/
theorem Move.handOff (h : Move c s l out) {sem : Sem} {t : Tcb Core}
    (hevent : out.event = some (.block sem t)) : HandOff c sem t out.core [] := by
  cases h <;> cases hevent
  exact .blocked (fun _ hmem => absurd hmem List.not_mem_nil) rfl rfl

end Step

/-- Every blocking `down` of the run is handed off. -/
def HandsOff (trace : List (Entry Core Sem)) (m : Machine Core Sem) : Prop :=
  ∀ pre c before sem t post,
    trace = pre ++ ⟨c, before, some (.block sem t)⟩ :: post →
      HandOff c sem t (m.cores c) post

section Runs

variable {m : Machine Core Sem} {items : QueueId Sem → List Nat} {c : Core}
  {out : Outcome Core Sem} {trace : List (Entry Core Sem)}

theorem HandsOff.move (h : HandsOff trace m) (hinv : Inv m items)
    (hmove : Move c m.shared (m.cores c) out) :
    HandsOff (trace ++ [⟨c, m.cores c, out.event⟩]) (m.after c out) := by
  intro pre c' before sem t post heq
  rcases List.eq_nil_or_concat post with rfl | ⟨post', last, rfl⟩
  · obtain ⟨-, hlast⟩ := List.append_inj' heq rfl
    simp only [List.cons.injEq, Entry.mk.injEq, and_true] at hlast
    obtain ⟨rfl, -, hevent⟩ := hlast
    rw [after_core_self]
    exact hmove.handOff hevent
  · rw [List.concat_eq_append, ← List.cons_append, ← List.append_assoc] at heq
    obtain ⟨htrace, hlast⟩ := List.append_inj' heq rfl
    cases hlast
    rw [List.concat_eq_append]
    exact (h pre c' before sem t post' htrace).move hinv hmove

/-- What every run keeps. -/
theorem Traced.locks {cnt : Sem → Int} (h : Traced cnt trace m) :
    ∃ items, Inv m items ∧ LockInv trace m ∧ HandsOff trace m := by
  induction h with
  | boot =>
      refine ⟨_, inv_initial cnt, lockInv_initial cnt, ?_⟩
      intro pre c before sem t post heq
      cases pre <;> cases heq
  | step _ hstep ih =>
      obtain ⟨items, hinv, hlocks, hhands⟩ := ih
      obtain ⟨out, hmove, rfl, rfl⟩ := hinv.step_move hstep
      exact ⟨_, hinv.move hmove, hlocks.move hinv hmove,
        hhands.move hinv hmove⟩

/-- The core holds the lock, according to the log of the run. -/
def HeldBy (trace : List (Entry Core Sem)) (c : Core) (lock : Lock Sem) :
    Prop :=
  c ∈ holders (lockLog trace) lock

/-- The core spins on a lock that the other core holds. -/
def WaitsOn (trace : List (Entry Core Sem)) (m : Machine Core Sem) :
    Core → Core → Prop :=
  SpinsOn (fun c => (m.cores c).ctl.waitsFor) (HeldBy trace)

theorem LockInv.heldBy_iff (h : LockInv trace m) (hinv : Inv m items)
    (c : Core) (lock : Lock Sem) :
    HeldBy trace c lock ↔ .lock lock ∈ (m.cores c).holds := by
  constructor
  · intro hheld
    have htaken : m.shared.locked lock = true := by
      by_contra hne
      unfold HeldBy at hheld
      rw [(h.tracked lock).isFree (by simpa using hne)] at hheld
      cases hheld
    obtain ⟨first, hfirst⟩ := hinv.holder_of_locked htaken
    unfold HeldBy at hheld
    rw [(h.tracked lock).holder first hfirst, List.mem_singleton] at hheld
    rw [hheld]
    exact hfirst
  · intro hmem
    unfold HeldBy
    rw [(h.tracked lock).holder c hmem]
    exact List.mem_singleton_self c

/-- In every run: each lock is acquired only while it is free and released by
the core that holds it, so at most one core does, and nobody holds a lock in a
thread's own code or while the idle loop looks for work; the lock of a
blocking `down` is released once, by that core's idle loop, behind the push of
the thread and before another thread is dispatched there; a core in a section
of the heap or of a queue waits for no lock; no cores wait for each other in a
circle, and behind each core that waits there is one that no lock hinders. -/
theorem run_spinlocks_sound (cnt : Sem → Int) (h : Traced cnt trace m) :
    History.Along SpinLocks.Law (lockLog trace) ∧
    (∀ lock c c', HeldBy trace c lock → HeldBy trace c' lock → c = c') ∧
    (∀ lock, m.shared.locked lock = true ↔ ∃ c, HeldBy trace c lock) ∧
    (∀ c, (m.cores c).ctl = .client ∨ (m.cores c).ctl = .popWait .next →
      ∀ lock, ¬ HeldBy trace c lock) ∧
    (∀ pre c before sem t post,
      trace = pre ++ ⟨c, before, some (.block sem t)⟩ :: post →
        HandOff c sem t (m.cores c) post) ∧
    (∀ c lock, lock.inner → HeldBy trace c lock →
      (m.cores c).ctl.waitsFor = none) ∧
    (∀ c, ¬ Relation.TransGen (WaitsOn trace m) c c) ∧
    (∀ c, ∃ c', Relation.ReflTransGen (WaitsOn trace m) c c' ∧
      ∀ lock, (m.cores c').ctl.waitsFor = some lock →
        m.shared.locked lock = false) := by
  obtain ⟨items, hinv, hlocks, hhands⟩ := h.locks
  have hheld := hlocks.heldBy_iff hinv
  have hrank : ∀ c c', WaitsOn trace m c c' →
      (m.cores c').ctl.rank < (m.cores c).ctl.rank := by
    rintro c c' ⟨lock, hwaits, hholds⟩
    exact hinv.rank_lt hwaits ((hheld c' lock).mp hholds)
  have htaken : ∀ lock, m.shared.locked lock = true → ∃ c, HeldBy trace c lock :=
    fun lock hlocked =>
      (hinv.holder_of_locked hlocked).imp fun c => (hheld c lock).mpr
  refine ⟨hlocks.law, ?_, fun lock => ⟨htaken lock, ?_⟩, ?_, hhands, ?_,
    SpinLocks.no_cycle hrank, SpinLocks.exists_unhindered hrank htaken⟩
  · intro lock c c' hc hc'
    exact hinv.holder_unique ((hheld c lock).mp hc) ((hheld c' lock).mp hc')
  · rintro ⟨c, hc⟩
    exact hinv.locked_of_holds ((hheld c lock).mp hc)
  · intro c hctl lock hholds
    exact holds_no_lock (hinv.ctl c) hctl lock ((hheld c lock).mp hholds)
  · intro c lock hinner hholds
    exact waitsFor_of_inner ((hheld c lock).mp hholds) hinner

end Runs

/-- One thread blocks, and the idle loop puts it in the queue. -/
def blockSchedule : List (Unit × Action Unit) :=
  bootSchedule ++ [((), .call (.down ()))] ++ List.replicate 11 ((), .run)

theorem run_spinlocks_sound_block :
    ∃ (trace : List (Entry Unit Unit)) (m : Machine Unit Unit),
      Traced (fun _ => 0) trace m ∧ m.shared.locked (.sem ()) = false ∧
      ∃ pre c before post,
        trace = pre ++ ⟨c, before, some (.block () (.thread 0))⟩ :: post ∧
          HandOff c () (.thread 0) (m.cores c) post := by
  have hfollow : ∃ past m, follow (initial fun _ => 0) blockSchedule =
      some (past, m) ∧ m.shared.locked (.sem ()) = false ∧
      .block () (.thread 0) ∈ past :=
    ⟨_, _, rfl, rfl, by decide⟩
  obtain ⟨past, m, hrun, hfree, hblock⟩ := hfollow
  obtain ⟨trace, htraced, hevents⟩ := (AnyRun.follow .boot hrun).traced
  have hmem : .block () (.thread 0) ∈ eventsOf trace := by
    rw [hevents]
    exact hblock
  obtain ⟨⟨c, before, event⟩, hentry, rfl⟩ := List.mem_filterMap.mp hmem
  obtain ⟨pre, post, htrace⟩ := List.append_of_mem hentry
  obtain ⟨-, -, -, -, hhands, -⟩ := run_spinlocks_sound (fun _ => 0) htraced
  exact ⟨trace, m, htraced, hfree, pre, c, before, post, htrace,
    hhands pre c before () (.thread 0) post htrace⟩

end Threads

end IntroOs
