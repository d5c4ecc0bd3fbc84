/-
`~Semaphore` next to the running thread system.  The destructor asks only
whether the queue is empty, under the queue's own lock; a thread that blocks
is in that queue no sooner than its core's idle loop has put it there.  The
check is right when it is made while the semaphore's lock is free.
-/
import IntroOs.SemaphoreAccounts
import IntroOs.ThreadsLocks

namespace IntroOs

namespace Threads

variable {Core Sem : Type} [DecidableEq Core] [DecidableEq Sem]

/-- Where a core is in `~Semaphore`: it spins on the lock of the queue, it
holds it, or its `ASSERT` has failed. -/
inductive Dtor (Sem : Type) where
  | wait (sem : Sem)
  | hold (sem : Sem)
  | panic (sem : Sem)
deriving DecidableEq

/-- The thread system with the destructors under way, and the queues whose
lock one of them holds. -/
structure Teardown (Core Sem : Type) where
  machine : Machine Core Sem
  dtor : Core → Option (Dtor Sem)
  held : Sem → Bool

/-- What the core that takes a step does: it goes on as in the thread system,
its context destroys a semaphore, or it goes on with the destructor. -/
inductive TeardownAction (Sem : Type) where
  | thread (action : Action Sem)
  | destroy (sem : Sem)
  | run
deriving DecidableEq

/-- What a step shows: an event of the thread system, and the semaphore whose
destructor has found its queue empty. -/
structure Shown (Core Sem : Type) where
  event : Option (Event Core Sem)
  passed : Option Sem

namespace Teardown

/-- The core spins on the lock of a queue that a destructor holds. -/
def hindered (t : Teardown Core Sem) (c : Core) : Bool :=
  match (t.machine.cores c).ctl.waitsFor with
  | some (.queue (.waiting sem)) => t.held sem
  | _ => false

/-- A core goes on with the destructor it is in. -/
def runDtor (t : Teardown Core Sem) (c : Core) :
    Dtor Sem → Option (Shown Core Sem × Teardown Core Sem)
  -- `q.empty()` takes the lock of the queue, never the semaphore's
  | .wait sem =>
      if t.machine.shared.locked (.queue (.waiting sem)) || t.held sem then
        none
      else some (⟨none, none⟩, { t with
        dtor := Function.update t.dtor c (some (.hold sem))
        held := Function.update t.held sem true })
  | .hold sem =>
      if (t.machine.shared.queue (.waiting sem)).head = none then
        some (⟨none, some sem⟩, { t with
          dtor := Function.update t.dtor c none
          held := Function.update t.held sem false })
      else some (⟨none, none⟩, { t with
        dtor := Function.update t.dtor c (some (.panic sem))
        held := Function.update t.held sem false })
  | .panic _ => none

/-- One step, taken by core `c`. -/
def step (c : Core) (action : TeardownAction Sem) (t : Teardown Core Sem) :
    Option (Shown Core Sem × Teardown Core Sem) :=
  match action, t.dtor c with
  | .thread action, none =>
      if t.hindered c then none
      else (Threads.step c action t.machine).map fun (event, m) =>
        (⟨event, none⟩, { t with machine := m })
  | .destroy sem, none =>
      if (t.machine.cores c).ctl = .client then
        some (⟨none, none⟩, { t with
          dtor := Function.update t.dtor c (some (.wait sem)) })
      else none
  | .run, some dtor => t.runDtor c dtor
  | _, _ => none

/-- The thread system with no destructor under way. -/
def quiet (m : Machine Core Sem) : Teardown Core Sem :=
  ⟨m, fun _ => none, fun _ => false⟩

end Teardown

/-- Runs with destructors, every step of which meets `ok`, with the events of
the thread system and the states in which a destructor's `ASSERT` passed. -/
inductive TeardownRun (cnt : Sem → Int)
    (ok : Teardown Core Sem → Core → Prop) :
    List (Event Core Sem) → List (Sem × Machine Core Sem) →
      Teardown Core Sem → Prop
  | boot : TeardownRun cnt ok [] [] (.quiet (initial cnt))
  | step {past : List (Event Core Sem)} {checks : List (Sem × Machine Core Sem)}
      {t t' : Teardown Core Sem} {c : Core} {action : TeardownAction Sem}
      {shown : Shown Core Sem} (before : TeardownRun cnt ok past checks t)
      (meets : ok t c) (step : t.step c action = some (shown, t')) :
      TeardownRun cnt ok (past ++ shown.event.toList)
        (checks ++ shown.passed.toList.map fun sem => (sem, t.machine)) t'

/-- The core's hand-off slots hold a thread that is still to be added to the
queue of `sem`. -/
def CoreState.Pending (sem : Sem) (l : CoreState Core Sem) : Prop :=
  l.pc.toAddTo = some sem ∧ l.pc.toQueue ≠ none ∧
    l.ctl ≠ .after .unlock ∧ l.ctl ≠ .after .queued

instance (sem : Sem) (l : CoreState Core Sem) : Decidable (l.Pending sem) :=
  inferInstanceAs (Decidable (_ ∧ _ ∧ _ ∧ _))

/-- The rule for destroying `sem`: the destructor reads the queue while the
semaphore's lock is free, and no `up` increments a counter that is at its
maximum. -/
def LockFree (sem : Sem) (t : Teardown Core Sem) (c : Core) : Prop :=
  (t.dtor c = some (.hold sem) →
    t.machine.shared.locked (.sem sem) = false) ∧
  ((t.machine.cores c).ctl = .upHold sem →
    t.machine.shared.counter sem < 2 ^ 63 - 1)

section Runs

variable {cnt : Sem → Int} {past : List (Event Core Sem)}
  {checks : List (Sem × Machine Core Sem)} {t t' : Teardown Core Sem}
  {sem : Sem} {m : Machine Core Sem} {items : QueueId Sem → List Nat} {c : Core}

/-- Only steps of the thread system change it. -/
theorem Teardown.step_machine {action : TeardownAction Sem}
    {shown : Shown Core Sem} (h : t.step c action = some (shown, t')) :
    (∃ action', Threads.step c action' t.machine =
      some (shown.event, t'.machine) ∧ shown.passed = none) ∨
    (shown.event = none ∧ t'.machine = t.machine ∧
      ∀ sem, shown.passed = some sem → t.dtor c = some (.hold sem) ∧
        (t.machine.shared.queue (.waiting sem)).head = none) := by
  simp only [Teardown.step] at h
  split at h
  · rename_i action' hdtor
    split at h
    · cases h
    · rw [Option.map_eq_some_iff] at h
      obtain ⟨⟨event, m⟩, hstep, heq⟩ := h
      cases heq
      exact .inl ⟨action', hstep, rfl⟩
  · split at h
    · cases h
      exact .inr ⟨rfl, rfl, nofun⟩
    · cases h
  · rename_i dtor hdtor
    right
    cases dtor with
    | wait sem =>
        simp only [Teardown.runDtor] at h
        split at h
        · cases h
        · cases h
          exact ⟨rfl, rfl, nofun⟩
    | hold sem =>
        simp only [Teardown.runDtor] at h
        split at h
        · rename_i hempty
          cases h
          refine ⟨rfl, rfl, ?_⟩
          intro sem' hsem
          cases hsem
          exact ⟨hdtor, hempty⟩
        · cases h
          exact ⟨rfl, rfl, nofun⟩
    | panic sem => cases h
  · cases h

/-- A run with destructors is one of the thread system. -/
theorem TeardownRun.base (h : TeardownRun cnt (LockFree sem) past checks t) :
    Run cnt (NoOverflow sem) past t.machine := by
  induction h with
  | boot => exact .boot
  | step _ hmeets hstep ih =>
      rcases Teardown.step_machine hstep with ⟨action', hbase, -⟩ |
        ⟨hevent, hmachine, -⟩
      · exact ih.step hmeets.2 hbase
      · rw [hevent, hmachine, Option.toList_none, List.append_nil]
        exact ih

section

omit [DecidableEq Core] [DecidableEq Sem]

theorem Ctl.done_of_pending {ctl : Ctl Core Sem}
    (hunlock : ctl ≠ .after .unlock) (hqueued : ctl ≠ .after .queued) :
    ctl.done ≠ .linked ∧ ctl.done ≠ .unlocked := by
  cases ctl with
  | heapWait op => cases op <;> exact ⟨nofun, nofun⟩
  | heapHold op => cases op <;> exact ⟨nofun, nofun⟩
  | after stage =>
      cases stage with
      | unlock => exact absurd rfl hunlock
      | queued => exact absurd rfl hqueued
      | _ => exact ⟨nofun, nofun⟩
  | _ => exact ⟨nofun, nofun⟩

end

/-- A core with a thread to be added holds the semaphore's lock. -/
theorem Inv.locked_of_pending (h : Inv m items)
    (hpending : (m.cores c).Pending sem) :
    m.shared.locked (.sem sem) = true := by
  obtain ⟨hadd, hqueue, hunlock, hqueued⟩ := hpending
  -- the slots are filled together
  have hslot : (m.cores c).pc.toUnlock = some sem := by
    rw [(h.ctl c).shaped.toUnlock_eq, hadd]
  obtain ⟨t, htcb⟩ := Option.ne_none_iff_exists'.mp hqueue
  obtain ⟨hlinked, hunlocked⟩ := Ctl.done_of_pending hunlock hqueued
  have hdebt : (m.cores c).pc.debt sem (m.cores c).ctl.done = .push t := by
    cases hdone : (m.cores c).ctl.done with
    | linked => exact absurd hdone hlinked
    | unlocked => exact absurd hdone hunlocked
    | _ => simp [PerCore.debt, hslot, htcb, Debt.at_self]
  have howes : (m.cores c).debt sem ≠ .settled := by
    simp [CoreState.debt, hdebt]
  exact h.locked_of_holds (lock_mem_holds_of_debt howes)

/-- With the lock free and the queue empty, nobody is blocked. -/
theorem Run.unblocked (hcnt : 0 ≤ cnt sem) (hmax : cnt sem < 2 ^ 63)
    (h : Run cnt (NoOverflow sem) past m)
    (hfree : m.shared.locked (.sem sem) = false)
    (hempty : (m.shared.queue (.waiting sem)).head = none) :
    0 ≤ m.shared.counter sem ∧ ∀ c, ¬ (m.cores c).Pending sem := by
  obtain ⟨items, hinv, hsem⟩ := h.semInv hcnt hmax
  -- a free lock means that no core is between the counter and the queue
  have hagrees := hsem.agrees_free hinv hfree
  have hnodes := (hinv.linked (.waiting sem)).head_eq_none_iff.mp hempty
  refine ⟨?_, ?_⟩
  · have hwaiting := (hagrees.queue_eq rfl rfl).2
    rw [Machine.waiting, hnodes, List.map_nil] at hwaiting
    rw [hagrees.counter, ← hwaiting]
    simp
  · intro c hpending
    rw [hinv.locked_of_pending hpending] at hfree
    cases hfree

/-- A run of the thread system is one without destructors. -/
theorem Run.teardown
    {ok : List (Event Core Sem) → Machine Core Sem → Core → Action Sem → Prop}
    {ok' : Teardown Core Sem → Core → Prop} (h : Run cnt ok past m)
    (hok : ∀ past m c action, ok past m c action → ok' (.quiet m) c) :
    TeardownRun cnt ok' past [] (.quiet m) := by
  induction h with
  | boot => exact .boot
  | @step past m m' c action event _ hmeets hstep ih =>
      have hquiet : (Teardown.quiet m).hindered c = false := by
        simp only [Teardown.hindered, Teardown.quiet]
        split <;> rfl
      have hlifted : (Teardown.quiet m).step c (.thread action) =
          some (⟨event, none⟩, .quiet m') := by
        change (if (Teardown.quiet m).hindered c then none
          else (Threads.step c action m).map _) = _
        rw [hquiet, hstep]
        rfl
      exact ih.step (hok past m c action hmeets) hlifted

/-- A destructor that finds the queue free and empty passes at once. -/
theorem TeardownRun.check {ok : Teardown Core Sem → Core → Prop}
    (h : TeardownRun cnt ok past checks (.quiet m))
    (hclient : (m.cores c).ctl = .client)
    (hfree : m.shared.locked (.queue (.waiting sem)) = false)
    (hempty : (m.shared.queue (.waiting sem)).head = none)
    (hok : ∀ t, t.machine = m → ok t c) :
    TeardownRun cnt ok past (checks ++ [(sem, m)]) (.quiet m) := by
  let waiting : Teardown Core Sem :=
    ⟨m, Function.update (fun _ => none) c (some (.wait sem)), fun _ => false⟩
  let holding : Teardown Core Sem :=
    ⟨m, Function.update (fun _ => none) c (some (.hold sem)),
      Function.update (fun _ => false) sem true⟩
  have hcall : (Teardown.quiet m).step c (.destroy sem) =
      some (⟨none, none⟩, waiting) := if_pos hclient
  have hlock : waiting.step c .run = some (⟨none, none⟩, holding) := by
    simp [Teardown.step, Teardown.runDtor, waiting, holding, hfree]
  have hread : holding.step c .run = some (⟨none, some sem⟩, .quiet m) := by
    simp [Teardown.step, Teardown.runDtor, holding, hempty, Teardown.quiet]
  have hrun := ((h.step (hok _ rfl) hcall).step (hok _ rfl) hlock).step
    (hok _ rfl) hread
  simpa using hrun

end Runs

/-- In every run in which destructors of `sem` read its queue with the
semaphore's lock free: where the `ASSERT` passes, the counter is not negative
and no core still has a thread to add to the queue. -/
theorem destructor_sound (cnt : Sem → Int) (sem : Sem) (hcnt : 0 ≤ cnt sem)
    (hmax : cnt sem < 2 ^ 63) {past : List (Event Core Sem)}
    {checks : List (Sem × Machine Core Sem)} {t : Teardown Core Sem}
    (h : TeardownRun cnt (LockFree sem) past checks t)
    (m : Machine Core Sem) (hcheck : (sem, m) ∈ checks) :
    0 ≤ m.shared.counter sem ∧ ∀ c, ¬ (m.cores c).Pending sem := by
  induction h with
  | boot => cases hcheck
  | @step past checks t t' c action shown hbefore hmeets hstep ih =>
      rcases List.mem_append.mp hcheck with hold | hnew
      · exact ih hold
      · obtain ⟨sem', hpassed, heq⟩ := List.mem_map.mp hnew
        cases heq
        rw [Option.mem_toList] at hpassed
        rcases Teardown.step_machine hstep with ⟨-, -, hnone⟩ | ⟨-, -, hcheck⟩
        · rw [hnone] at hpassed
          cases hpassed
        · obtain ⟨hhold, hempty⟩ := hcheck sem hpassed
          exact hbefore.base.unblocked hcnt hmax (hmeets.1 hhold) hempty

/-- After booting, the thread takes the permit there is and gives it back. -/
def permitSchedule : List (Unit × Action Unit) :=
  bootSchedule ++ [((), .call (.down ()))] ++ List.replicate 3 ((), .run) ++
    [((), .call (.up ()))] ++ List.replicate 3 ((), .run)

/-- Then the semaphore is destroyed. -/
theorem destructor_sound_permit :
    ∃ (past : List (Event Unit Unit)) (m : Machine Unit Unit),
      TeardownRun (fun _ => 1) (LockFree ()) past [((), m)] (.quiet m) ∧
      downs past () = 1 ∧ 0 ≤ m.shared.counter () ∧
      ∀ c, ¬ (m.cores c).Pending () := by
  have hfollow : (follow (initial fun _ => 1) permitSchedule).map
      (fun r => (downs r.1 (), (r.2.cores ()).ctl,
        r.2.shared.locked (.queue (.waiting ())),
        (r.2.shared.queue (.waiting ())).head,
        r.2.shared.locked (.sem ()))) =
      some (1, .client, false, none, false) := by
    decide +kernel
  obtain ⟨⟨past, m⟩, hrun, hfields⟩ := Option.map_eq_some_iff.mp hfollow
  simp only [Prod.mk.injEq] at hfields
  obtain ⟨hdowns, hclient, hqueue, hempty, hfree⟩ := hfields
  have hbase : Run (fun _ => 1) (NoOverflow ()) past m :=
    Run.follow .boot (by decide) hrun
  have hlifted : TeardownRun (fun _ => 1) (LockFree ()) past [] (.quiet m) :=
    hbase.teardown fun _ _ _ _ hmeets => ⟨nofun, hmeets⟩
  have hmeets (t : Teardown Unit Unit) (ht : t.machine = m) :
      LockFree () t () := by
    refine ⟨fun _ => ht ▸ hfree, fun hup => ?_⟩
    rw [ht, hclient] at hup
    cases hup
  have hcheck := hlifted.check hclient hqueue hempty hmeets
  exact ⟨past, m, hcheck, hdowns, destructor_sound (fun _ => 1) ()
    (by decide) (by decide) hcheck m List.mem_cons_self⟩

/-- On the first of two cores a thread calls `down` and gets as far as the
decrement. -/
def strandSchedule : List (Bool × Action Unit) :=
  List.flatten [bootSchedule.map fun step => (false, step.2),
    [(false, .call (.down ())), (false, .run), (false, .run)]]

/-- The destructor on the other core passes while the thread is blocked: the
counter is negative, and the thread is still in the hand-off slots. -/
theorem destructor_strands_thread :
    ∃ (past : List (Event Bool Unit)) (m : Machine Bool Unit),
      TeardownRun (fun _ => 0) (fun _ _ => True) past [((), m)] (.quiet m) ∧
      m.shared.counter () = -1 ∧ (m.cores false).Pending () := by
  have hfollow : (follow (initial fun _ => 0) strandSchedule).map
      (fun r => ((r.2.cores true).ctl,
        r.2.shared.locked (.queue (.waiting ())),
        (r.2.shared.queue (.waiting ())).head, r.2.shared.counter (),
        decide ((r.2.cores false).Pending ()))) =
      some (.client, false, none, -1, true) := by
    decide +kernel
  obtain ⟨⟨past, m⟩, hrun, hfields⟩ := Option.map_eq_some_iff.mp hfollow
  simp only [Prod.mk.injEq, decide_eq_true_eq] at hfields
  obtain ⟨hclient, hqueue, hempty, hcounter, hpending⟩ := hfields
  have hbase : AnyRun (fun _ => 0) past m := AnyRun.follow .boot hrun
  have hlifted : TeardownRun (fun _ => 0) (fun _ _ => True) past [] (.quiet m) :=
    hbase.teardown fun _ _ _ _ _ => trivial
  have hcheck := hlifted.check hclient hqueue hempty
    fun _ _ => trivial
  exact ⟨past, m, hcheck, hcounter, hpending⟩

end Threads

end IntroOs
