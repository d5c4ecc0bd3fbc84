/-
Semaphore accounting over whole runs: the counter, the length of the queue
and the number of grants follow from the numbers of `up` and `down`, and
blocked threads are granted in order.
-/
import IntroOs.ThreadsSemaphore

namespace IntroOs

namespace Threads

variable {Core Sem : Type} [DecidableEq Core] [DecidableEq Sem]

/-- The `down`s that have taken effect. -/
def downs (past : List (Event Core Sem)) (sem : Sem) : Nat :=
  (opsOf past sem).countP CountingSemaphore.Op.isDown

/-- The `up`s that have taken effect. -/
def ups (past : List (Event Core Sem)) (sem : Sem) : Nat :=
  (opsOf past sem).countP CountingSemaphore.Op.isUp

/-- The `down`s that found a permit, and those that an `up` took off the
queue. -/
def granted (past : List (Event Core Sem)) (sem : Sem) : Nat :=
  (passedOf past sem).length + (wokenOf past sem).length

/-- No `up` of `sem` increments a counter that is at its maximum. -/
def NoOverflow (sem : Sem) (_past : List (Event Core Sem))
    (m : Machine Core Sem) (c : Core) (_action : Action Sem) : Prop :=
  (m.cores c).ctl = .upHold sem → m.shared.counter sem < 2 ^ 63 - 1

section Runs

variable {m : Machine Core Sem} {items : QueueId Sem → List Nat}
  {past : List (Event Core Sem)} {sem : Sem} {cnt : Nat}

theorem Run.semInv {cnt : Sem → Int} (hcnt : 0 ≤ cnt sem)
    (hmax : cnt sem < 2 ^ 63) (h : Run cnt (NoOverflow sem) past m) :
    ∃ items, Inv m items ∧ SemInv (cnt sem).toNat past m items sem := by
  induction h with
  | boot => exact ⟨_, inv_initial cnt, semInv_initial cnt hcnt hmax⟩
  | step _ hmeets hstep ih =>
      obtain ⟨items, hinv, hsem⟩ := ih
      obtain ⟨out, hmove, rfl, rfl⟩ := hinv.step_move hstep
      exact ⟨_, hinv.move hmove, hsem.move hinv hmove hmeets⟩

/-- While nobody holds the lock, nobody owes anything. -/
theorem SemInv.agrees_free (h : SemInv cnt past m items sem)
    (hinv : Inv m items) (hfree : m.shared.locked (.sem sem) = false) :
    Agrees cnt past sem (m.shared.counter sem) (m.waiting items sem)
      .settled := by
  obtain ⟨debt, howing, hagrees⟩ := h.agrees
  have hsettled : debt = .settled := by
    rcases howing.2 with hsettled | ⟨c, hdebt⟩
    · exact hsettled
    · by_contra hne
      have hone := hinv.amount_of_held c
        (lock_mem_holds_of_debt (by rw [hdebt]; exact hne))
      simp [Shared.amount, hfree] at hone
  rw [← hsettled]
  exact hagrees

theorem mem_owed_of_not_paid {owed : List (Owed Core)} {paid : Owed Core}
    {post : List (Event Core Sem)} (hmem : paid ∈ owed)
    (hpays : ∀ event ∈ post, event.pays sem ≠ some paid) :
    paid ∈ post.foldl (Owed.next sem) owed := by
  induction post generalizing owed with
  | nil => exact hmem
  | cons event rest ih =>
      refine ih ?_ fun event hevent => hpays event (List.mem_cons_of_mem _ hevent)
      have hne := hpays event List.mem_cons_self
      cases event with
      | pass sem' t =>
          by_cases heq : sem' = sem
          · simp only [Owed.next, heq, ↓reduceIte]
            exact List.mem_cons_of_mem _ hmem
          · simpa only [Owed.next, heq, ↓reduceIte] using hmem
      | unlink caller q t =>
          by_cases heq : q = .waiting sem
          · simp only [Owed.next, heq, ↓reduceIte]
            exact List.mem_cons_of_mem _ hmem
          · simpa only [Owed.next, heq, ↓reduceIte] using hmem
      | downRet sem' t =>
          by_cases heq : sem' = sem
          · simp only [Owed.next, heq, ↓reduceIte]
            refine (List.mem_erase_of_ne fun hpaid => hne ?_).mpr hmem
            rw [hpaid, Event.pays, if_pos heq]
          · simpa only [Owed.next, heq, ↓reduceIte] using hmem
      | link q t =>
          by_cases heq : q = .ready
          · simp only [Owed.next, heq, ↓reduceIte]
            refine (List.mem_erase_of_ne fun hpaid => hne ?_).mpr hmem
            rw [hpaid, Event.pays, if_pos heq]
          · simpa only [Owed.next, heq, ↓reduceIte] using hmem
      | _ => exact hmem

/-- With nothing owed, every `down` that found a permit has returned. -/
theorem returned_of_owed_nil {pre post : List (Event Core Sem)} {t : Tcb Core}
    (hpast : past = pre ++ .pass sem t :: post) (hnil : owedOf past sem = []) :
    .downRet sem t ∈ post := by
  by_contra hmem
  have howed : .ret t ∈ owedOf past sem := by
    rw [hpast, owedOf, List.foldl_append, List.foldl_cons]
    refine mem_owed_of_not_paid (by simp [Owed.next]) fun event hevent hpays => ?_
    cases event with
    | downRet sem' u =>
        by_cases heq : sem' = sem
        · rw [Event.pays, if_pos heq] at hpays
          cases hpays
          exact hmem (heq ▸ hevent)
        · rw [Event.pays, if_neg heq] at hpays
          cases hpays
    | link q u =>
        simp only [Event.pays] at hpays
        split at hpays <;> cases hpays
    | _ => cases hpays
  rw [hnil] at howed
  cases howed

/-- With nothing owed, every thread taken off the queue was scheduled. -/
theorem scheduled_of_owed_nil {pre post : List (Event Core Sem)}
    {caller t : Tcb Core}
    (hpast : past = pre ++ .unlink caller (.waiting sem) t :: post)
    (hnil : owedOf past sem = []) : .link .ready t ∈ post := by
  by_contra hmem
  have howed : .wake t ∈ owedOf past sem := by
    rw [hpast, owedOf, List.foldl_append, List.foldl_cons]
    refine mem_owed_of_not_paid (by simp [Owed.next]) fun event hevent hpays => ?_
    cases event with
    | downRet sem' u =>
        simp only [Event.pays] at hpays
        split at hpays <;> cases hpays
    | link q u =>
        by_cases heq : q = .ready
        · rw [Event.pays, if_pos heq] at hpays
          cases hpays
          exact hmem (heq ▸ hevent)
        · rw [Event.pays, if_neg heq] at hpays
          cases hpays
    | _ => cases hpays
  rw [hnil] at howed
  cases howed

/-- In every run in which no `up` overflows the counter: whenever the lock is
free, the counter is exact, the queue holds the threads that blocked and were
not taken off it, as many as the counter is below zero, the grants are as many
as the permits allow, and each is complete.  In every state no assertion of
`up` has failed, no `down` was granted without a permit, and blocked threads
were granted in the order in which they took the lock. -/
theorem run_semaphore_accounts (cnt : Sem → Int) (sem : Sem)
    (hcnt : 0 ≤ cnt sem) (hmax : cnt sem < 2 ^ 63)
    (h : Run cnt (NoOverflow sem) past m) :
    (m.shared.locked (.sem sem) = false →
      m.shared.counter sem = cnt sem + ups past sem - downs past sem ∧
      (∃ nodes, LinkedQueue.Linked m.shared.cells
          (m.shared.queue (.waiting sem)) nodes ∧
        (nodes.length : Int) = max 0 (-m.shared.counter sem) ∧
        blockedOf past sem = wokenOf past sem ++
          nodes.map fun node => (m.shared.cells node).value) ∧
      (granted past sem : Int) = min (downs past sem : Int)
        (cnt sem + ups past sem) ∧
      (∀ pre t post, past = pre ++ .pass sem t :: post →
        .downRet sem t ∈ post) ∧
      (∀ pre caller t post,
        past = pre ++ .unlink caller (.waiting sem) t :: post →
        .link .ready t ∈ post)) ∧
    (∀ c, (m.cores c).ctl ≠ .upPanic sem) ∧
    (granted past sem : Int) ≤ cnt sem + ups past sem ∧
    wokenOf past sem <+: blockedOf past sem := by
  obtain ⟨items, hinv, hsem⟩ := h.semInv hcnt hmax
  obtain ⟨debt, -, hagrees⟩ := hsem.agrees
  have hnat : ((cnt sem).toNat : Int) = cnt sem := Int.toNat_of_nonneg hcnt
  obtain ⟨hbalance, htotal⟩ :=
    CountingSemaphore.run_balance (cnt sem).toNat (opsOf past sem)
  have hgranted := CountingSemaphore.run_granted (cnt sem).toNat (opsOf past sem)
  have hwaiting :=
    CountingSemaphore.run_waiting_length (cnt sem).toNat (opsOf past sem)
  refine ⟨fun hfree => ?_, hsem.calm, ?_, ?_⟩
  · have hsettled := hsem.agrees_free hinv hfree
    obtain ⟨hwoken, hqueue⟩ := hsettled.queue_eq rfl rfl
    have hcounter := hsettled.counter
    have howed : owedOf past sem = [] := hsettled.owed
    simp only [specOf] at hcounter hqueue hwoken
    refine ⟨?_, ⟨_, hinv.linked (.waiting sem), ?_, ?_⟩, ?_,
      fun pre t post hpast => returned_of_owed_nil hpast howed,
      fun pre caller t post hpast => scheduled_of_owed_nil hpast howed⟩
    · rw [hcounter, ups, downs]
      omega
    · have hlength := congrArg List.length hqueue
      rw [Machine.waiting, List.length_map] at hlength
      rw [hcounter, hlength]
      omega
    · have hall := hsettled.queue
      rw [← hsettled.blocked] at hall
      simpa [Debt.pushed, Machine.waiting] using hall.symm
    · rw [granted, hsettled.passed, hwoken, ups, downs]
      simp only [specOf]
      simp only [CountingSemaphore.State.granted] at hgranted
      omega
  · have hlag := hagrees.lag
    rw [granted, hagrees.passed, ups]
    simp only [specOf] at hlag ⊢
    simp only [CountingSemaphore.State.granted] at hgranted
    omega
  · rw [hagrees.blocked, ← hagrees.queue, List.append_assoc]
    exact List.prefix_append _ _

end Runs

instance {sem : Sem} {past : List (Event Core Sem)} {m : Machine Core Sem}
    {c : Core} {action : Action Sem} :
    Decidable (NoOverflow sem past m c action) :=
  inferInstanceAs (Decidable (_ → _))

/-- Three threads: the first two block in `down`, the third calls `up` once
and so wakes the first. -/
def wakeSchedule : List (Unit × Action Unit) :=
  List.flatten [
    [((), .call .go)], List.replicate 8 ((), .run),
    [((), .call .go)], List.replicate 8 ((), .run), bootSchedule,
    [((), .call (.down ()))], List.replicate 19 ((), .run),
    [((), .call (.down ()))], List.replicate 19 ((), .run),
    [((), .call (.up ()))], List.replicate 11 ((), .run)]

theorem run_semaphore_accounts_wake :
    ∃ (past : List (Event Unit Unit)) (m : Machine Unit Unit),
      Run (fun _ => 0) (NoOverflow ()) past m ∧
      m.shared.locked (.sem ()) = false ∧ downs past () = 2 ∧
      ups past () = 1 ∧ blockedOf past () = [.thread 0, .thread 3] ∧
      wokenOf past () = [.thread 0] ∧
      m.shared.counter () = 0 + ups past () - downs past () ∧
      (granted past () : Int) = min (downs past () : Int) (0 + ups past ()) ∧
      .link .ready (.thread 0) ∈ past := by
  have hfollow : (follow (initial fun _ => 0) wakeSchedule).map
      (fun r => decide (r.2.shared.locked (.sem ()) = false ∧
        downs r.1 () = 2 ∧ ups r.1 () = 1 ∧
        blockedOf r.1 () = [.thread 0, .thread 3] ∧
        wokenOf r.1 () = [.thread 0] ∧
        .unlink (.thread 6) (.waiting ()) (.thread 0) ∈ r.1)) =
      some true := by
    decide +kernel
  obtain ⟨⟨past, m⟩, hrun, hfields⟩ := Option.map_eq_some_iff.mp hfollow
  obtain ⟨hfree, hdowns, hups, hblocked, hwoken, hunlink⟩ :=
    of_decide_eq_true hfields
  obtain ⟨pre, post, rfl⟩ : ∃ pre post, past =
      pre ++ .unlink (.thread 6) (.waiting ()) (.thread 0) :: post :=
    List.append_of_mem hunlink
  have hreach : Run (fun _ => 0) (NoOverflow ()) _ m :=
    Run.follow .boot (by decide +kernel) hrun
  obtain ⟨hcounter, -, hgranted, -, hscheduled⟩ :=
    (run_semaphore_accounts (fun _ => 0) () (by decide) (by decide)
      hreach).1 hfree
  exact ⟨_, m, hreach, hfree, hdowns, hups, hblocked, hwoken, hcounter,
    hgranted, List.mem_append_right pre (List.mem_cons_of_mem _
      (hscheduled pre _ _ post rfl))⟩

/-- After booting, the thread calls `up`. -/
def upSchedule : List (Unit × Action Unit) :=
  bootSchedule ++ [((), .call (.up ()))] ++ List.replicate 3 ((), .run)

/-- With all permits there can be, one more `up` wraps the counter around with
nobody waiting, and the `up` behind it fails its assertion. -/
theorem up_overflows_counter :
    ∃ (past : List (Event Unit Unit)) (m : Machine Unit Unit),
      AnyRun (fun _ => 2 ^ 63 - 1) past m ∧
      m.shared.locked (.sem ()) = false ∧
      m.shared.counter () ≠ (2 ^ 63 - 1) + ups past () - downs past () ∧
      m.shared.queue (.waiting ()) = .empty ∧
      m.shared.counter () = -2 ^ 63 ∧
      ∃ later last, AnyRun (fun _ => 2 ^ 63 - 1) (past ++ later) last ∧
        (last.cores ()).ctl = .upPanic () := by
  have hfollow : ∃ past m later last,
      follow (initial fun _ => 2 ^ 63 - 1) upSchedule = some (past, m) ∧
      follow m ([((), .call (.up ()))] ++ List.replicate 4 ((), .run)) =
        some (later, last) ∧
      m.shared.locked (.sem ()) = false ∧
      m.shared.counter () ≠ (2 ^ 63 - 1) + ups past () - downs past () ∧
      m.shared.queue (.waiting ()) = .empty ∧
      m.shared.counter () = -2 ^ 63 ∧ (last.cores ()).ctl = .upPanic () :=
    ⟨_, _, _, _, rfl, rfl, rfl, by decide, rfl, by decide, rfl⟩
  obtain ⟨past, m, later, last, hrun, hlater, hfree, hcounter, hqueue, hwrap,
    hpanic⟩ := hfollow
  have hreach : AnyRun (fun _ => 2 ^ 63 - 1) past m :=
    AnyRun.follow .boot hrun
  exact ⟨past, m, hreach, hfree, hcounter, hqueue, hwrap, later, last,
    AnyRun.follow hreach hlater, hpanic⟩

end Threads

end IntroOs
