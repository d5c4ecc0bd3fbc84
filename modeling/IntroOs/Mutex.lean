/-
Mutexes: a semaphore with one permit, used by threads that unlock only what
they have locked.  At most one thread is inside, a waiting thread implies an
owner, and an unlock hands over to the thread that waits longest.
-/
import IntroOs.MutexAccounts

namespace IntroOs

namespace Threads

variable {Core Sem : Type} [DecidableEq Core] [DecidableEq Sem]

/-- A thread calls `unlock` only after its own `lock` has returned, and once
for each. -/
def UnlocksOwn (sem : Sem) (past : List (Event Core Sem))
    (m : Machine Core Sem) (c : Core) (action : Action Sem) : Prop :=
  action = .call (.up sem) → ∀ t, (m.cores c).pc.curr = some t →
    unlocks past sem t < locks past sem t

section Step

variable {m : Machine Core Sem} {items : QueueId Sem → List Nat} {c : Core}
  {out : Outcome Core Sem} {past : List (Event Core Sem)} {sem : Sem}

/-- What holds when a thread gets or gives away the mutex: one that finds it
free finds no owner and nobody waiting, `unlock` is called by the only owner,
and it hands over to the thread that waits longest. -/
def MutexLaw (sem : Sem) (past : List (Event Core Sem)) :
    Event Core Sem → Prop
  | .pass sem' _ => sem' = sem →
      ownersOf past sem = [] ∧ wokenOf past sem = blockedOf past sem
  | .up sem' t wakes => sem' = sem →
      ownersOf past sem = [t] ∧
        (wakes = true ↔ wokenOf past sem ≠ blockedOf past sem)
  | .unlink caller q t => q = .waiting sem →
      ownersOf past sem = [caller] ∧
        ownersOf (past ++ [.unlink caller q t]) sem = [t] ∧
        ∃ rest, blockedOf past sem = wokenOf past sem ++ t :: rest
  | _ => True

/-- The mutex has one owner or one permit. -/
def OnePermit (past : List (Event Core Sem)) (sem : Sem) : Prop :=
  (ownersOf past sem).length + (specOf 1 past sem).permits = 1

theorem OnePermit.owners_eq (h : OnePermit past sem) {t : Tcb Core}
    (hmem : t ∈ ownersOf past sem) :
    ownersOf past sem = [t] ∧ (specOf 1 past sem).permits = 0 := by
  have hpos := List.length_pos_of_mem hmem
  unfold OnePermit at h
  obtain ⟨u, hu⟩ := List.length_eq_one_iff.mp
    (show (ownersOf past sem).length = 1 by omega)
  rw [hu, List.mem_singleton] at hmem
  exact ⟨by rw [hu, hmem], by omega⟩

section

omit [DecidableEq Core]

theorem CtlOk.thread_of_share {idleSp : Resume Sem} {pc : PerCore Core Sem}
    {ctl : Ctl Core Sem} (hok : CtlOk c idleSp pc ctl)
    (hshare : 0 < ctl.share sem) :
    ctl.mode = .normal ∧ ∃ id, pc.curr = some (.thread id) := by
  cases ctl with
  | downUnlock _ => obtain ⟨-, prev, id, rfl⟩ := hok; exact ⟨rfl, id, rfl⟩
  | downReturn _ => obtain ⟨-, prev, id, rfl⟩ := hok; exact ⟨rfl, id, rfl⟩
  | upWait _ => obtain ⟨-, prev, id, rfl⟩ := hok; exact ⟨rfl, id, rfl⟩
  | upHold _ => obtain ⟨-, prev, id, rfl⟩ := hok; exact ⟨rfl, id, rfl⟩
  | popWait site =>
      cases site with
      | next => exact absurd hshare (Nat.lt_irrefl 0)
      | up _ => obtain ⟨-, prev, id, rfl⟩ := hok; exact ⟨rfl, id, rfl⟩
  | popHold site =>
      cases site with
      | next => exact absurd hshare (Nat.lt_irrefl 0)
      | up _ => obtain ⟨-, prev, id, rfl⟩ := hok; exact ⟨rfl, id, rfl⟩
  | _ => exact absurd hshare (Nat.lt_irrefl 0)

theorem specOf_of_quiet {event : Event Core Sem} (cnt : Nat)
    (hop : event.op sem = none) :
    specOf cnt (past ++ [event]) sem = specOf cnt past sem := by
  simp [specOf, opsOf, hop]

end

/-- A thread in `lock` with its grant or in `unlock` owns the mutex. -/
theorem Accounts.owner_of_ctl (hacc : Accounts past m items sem)
    (h : Inv m items) (hshare : 0 < (m.cores c).ctl.share sem) {t : Tcb Core}
    (hcurr : (m.cores c).pc.curr = some t) : t ∈ ownersOf past sem := by
  obtain ⟨hmode, id, hthread⟩ := (h.ctl c).thread_of_share hshare
  rw [hthread] at hcurr
  cases hcurr
  refine (hacc.core c id .running (has_running hthread)).owner ?_
  simpa only [CoreState.share, hmode] using hshare

theorem Move.curr_of_up {s : Shared Core Sem} {l : CoreState Core Sem}
    (h : Move c s l out) {t : Tcb Core} {wakes : Bool}
    (hevent : out.event = some (.up sem t wakes)) :
    l.pc.curr = some t ∧ l.ctl = .upHold sem := by
  cases h <;> cases hevent <;> exact ⟨rfl, rfl⟩

theorem Move.ctl_of_unlink {s : Shared Core Sem} {l : CoreState Core Sem}
    (h : Move c s l out) {caller t : Tcb Core}
    (hevent : out.event = some (.unlink caller (.waiting sem) t)) :
    l.ctl = .popHold (.up sem) := by
  cases h with
  | @unlink pc site caller' node rest _ _ =>
      simp only [Option.some.injEq, Event.unlink.injEq] at hevent
      obtain ⟨-, hqueue, -⟩ := hevent
      cases site <;> cases hqueue
      rfl
  | _ => cases hevent

theorem nextOwners_of_quiet {event : Event Core Sem} {owners : List (Tcb Core)}
    (hop : event.op sem = none) (hwakes : event.wakes sem = none) :
    nextOwners sem owners event = owners := by
  cases event <;> simp_all [Event.op, Event.wakes, nextOwners]

theorem mutexLaw_of_quiet {event : Event Core Sem}
    (hop : event.op sem = none) (hwakes : event.wakes sem = none) :
    MutexLaw sem past event := by
  cases event <;> simp_all [Event.op, Event.wakes, MutexLaw]

/-- Nobody waits exactly when the abstract semaphore has nobody waiting. -/
theorem Agrees.woken_eq_blocked {cnt : Nat} {counter : Int}
    {queue : List (Tcb Core)} {debt : Debt Core}
    (h : Agrees cnt past sem counter queue debt) (hpops : debt.pops = 0) :
    wokenOf past sem = blockedOf past sem ↔
      (specOf cnt past sem).waiting = [] := by
  have hqueue := h.queue
  have hlag := h.lag
  rw [List.append_assoc] at hqueue
  rw [hpops] at hlag
  obtain ⟨hwoken, -⟩ := List.append_inj hqueue hlag
  rw [h.blocked, hwoken, CountingSemaphore.State.blocked]
  exact List.self_eq_append_right

/-- A `lock` that finds a permit finds the mutex free. -/
theorem OnePermit.pass {counter : Int} {queue : List (Tcb Core)}
    (h : OnePermit past sem) (hagrees : Agrees 1 past sem counter queue .settled)
    (hpos : 0 < counter) (t : Tcb Core) :
    OnePermit (past ++ [.pass sem t]) sem ∧ MutexLaw sem past (.pass sem t) := by
  have hcounter := hagrees.counter
  have hpermits : 0 < (specOf 1 past sem).permits := by omega
  have hspec : specOf 1 (past ++ [.pass sem t]) sem =
      (specOf 1 past sem).down t :=
    specOf_concat 1 past (.pass sem t) (.down t) (if_pos rfl)
  have hdown := (CountingSemaphore.State.down_of_pos (t := t) hpermits).1
  unfold OnePermit at h
  have hnone : ownersOf past sem = [] := List.length_eq_zero_iff.mp (by omega)
  refine ⟨?_, fun _ => ⟨hnone, ?_⟩⟩
  · unfold OnePermit
    rw [ownersOf_concat, hspec, hnone]
    simp only [nextOwners, ↓reduceIte, List.length_singleton]
    omega
  · exact (hagrees.woken_eq_blocked rfl).mpr
      ((specOf 1 past sem).exclusive.resolve_left (by omega))

theorem OnePermit.block {counter : Int} {queue : List (Tcb Core)}
    (h : OnePermit past sem) (hagrees : Agrees 1 past sem counter queue .settled)
    (hle : counter ≤ 0) (t : Tcb Core) :
    OnePermit (past ++ [.block sem t]) sem := by
  have hzero := hagrees.permits_zero hle
  have hspec : specOf 1 (past ++ [.block sem t]) sem =
      (specOf 1 past sem).down t :=
    specOf_concat 1 past (.block sem t) (.down t) (if_pos rfl)
  unfold OnePermit at h ⊢
  rw [ownersOf_concat, hspec,
    (CountingSemaphore.State.down_of_zero (t := t) hzero).1]
  rw [hzero] at h
  exact h

/-- An `unlock` that finds threads waiting keeps the mutex until it has taken
one off the queue. -/
theorem OnePermit.upWakes {counter : Int} {queue : List (Tcb Core)}
    (h : OnePermit past sem) (hagrees : Agrees 1 past sem counter queue .settled)
    (hneg : counter < 0) {t : Tcb Core} (hmem : t ∈ ownersOf past sem) :
    OnePermit (past ++ [.up sem t true]) sem ∧
      MutexLaw sem past (.up sem t true) := by
  obtain ⟨u, rest, hcons⟩ := hagrees.waiting_cons hneg
  have hspec : specOf 1 (past ++ [.up sem t true]) sem =
      (specOf 1 past sem).up :=
    specOf_concat 1 past (.up sem t true) .up (if_pos rfl)
  refine ⟨?_, fun _ => ⟨(h.owners_eq hmem).1, ?_⟩⟩
  · unfold OnePermit at h ⊢
    rw [ownersOf_concat, hspec, (CountingSemaphore.State.up_of_cons hcons).1]
    simpa [nextOwners] using h
  · simp [hagrees.woken_eq_blocked rfl, hcons]

/-- An `unlock` that finds nobody waiting leaves the mutex free. -/
theorem OnePermit.upFrees {counter : Int} {queue : List (Tcb Core)}
    (h : OnePermit past sem) (hagrees : Agrees 1 past sem counter queue .settled)
    (hnonneg : 0 ≤ counter) {t : Tcb Core} (hmem : t ∈ ownersOf past sem) :
    OnePermit (past ++ [.up sem t false]) sem ∧
      MutexLaw sem past (.up sem t false) := by
  have hnil := hagrees.waiting_nil hnonneg
  obtain ⟨howners, hzero⟩ := h.owners_eq hmem
  have hspec : specOf 1 (past ++ [.up sem t false]) sem =
      (specOf 1 past sem).up :=
    specOf_concat 1 past (.up sem t false) .up (if_pos rfl)
  refine ⟨?_, fun _ => ⟨howners, ?_⟩⟩
  · unfold OnePermit
    rw [ownersOf_concat, hspec, (CountingSemaphore.State.up_of_nil hnil).1,
      howners, hzero]
    simp [nextOwners]
  · simp [hagrees.woken_eq_blocked rfl, hnil]

/-- The thread taken off the queue becomes the owner. -/
theorem OnePermit.unlink {counter : Int} {rest : List (Tcb Core)}
    {caller t : Tcb Core} (h : OnePermit past sem)
    (hagrees : Agrees 1 past sem counter (t :: rest) .pop)
    (hmem : caller ∈ ownersOf past sem) :
    OnePermit (past ++ [.unlink caller (.waiting sem) t]) sem ∧
      MutexLaw sem past (.unlink caller (.waiting sem) t) := by
  obtain ⟨howners, hzero⟩ := h.owners_eq hmem
  have hafter : ownersOf (past ++ [.unlink caller (.waiting sem) t]) sem =
      [t] := by
    rw [ownersOf_concat, howners]
    simp [nextOwners]
  refine ⟨?_, fun _ => ⟨howners, hafter, rest, ?_⟩⟩
  · unfold OnePermit
    rw [hafter, specOf_of_quiet 1 rfl, hzero]
    rfl
  · rw [hagrees.blocked, ← hagrees.queue]
    simp [Debt.pushed]

/-- A move keeps one owner or one permit, and obeys the law. -/
theorem OnePermit.move (h : OnePermit past sem)
    (hacc : Accounts past m items sem) (hsem : SemInv 1 past m items sem)
    (hinv : Inv m items) (hmove : Move c m.shared (m.cores c) out) :
    OnePermit (past ++ out.event.toList) sem ∧
      ∀ event, out.event = some event → MutexLaw sem past event := by
  have hmax := maxBlocks_lt
  have hbelow := hsem.below
  have hquiet : ∀ event, out.event = some event → event.op sem = none →
      event.wakes sem = none →
      OnePermit (past ++ out.event.toList) sem ∧
        ∀ event, out.event = some event → MutexLaw sem past event := by
    intro event hevent hop hwakes
    rw [hevent]
    refine ⟨?_, fun event' heq => ?_⟩
    · unfold OnePermit at h ⊢
      rw [Option.toList_some, ownersOf_concat, nextOwners_of_quiet hop hwakes,
        specOf_of_quiet 1 hop]
      exact h
    · cases heq
      exact mutexLaw_of_quiet hop hwakes
  have hevent_law : ∀ event, out.event = some event →
      OnePermit (past ++ [event]) sem ∧ MutexLaw sem past event →
      OnePermit (past ++ out.event.toList) sem ∧
        ∀ event, out.event = some event → MutexLaw sem past event := by
    intro event hevent hlaw
    rw [hevent]
    refine ⟨hlaw.1, fun event' heq => ?_⟩
    cases heq
    exact hlaw.2
  cases hmove.semMove (hinv.ctl c) sem with
  | quiet _ _ hevents =>
      cases hevent : out.event with
      | none =>
          rw [Option.toList_none, List.append_nil]
          exact ⟨h, by simp⟩
      | some event =>
          obtain ⟨hop, hwakes, -, -⟩ := hevents event hevent
          rw [← hevent]
          exact hquiet event hevent hop hwakes
  | block id hctl hsettled hneg hevent _ _ =>
      obtain ⟨hagrees, hge⟩ := hsem.agrees_settled hinv
        (by rw [hctl]; simp [Ctl.holds]) hsettled
      rw [int64_of_range (by omega) (by omega)] at hneg
      exact hevent_law _ hevent ⟨h.block hagrees (by omega) _, trivial⟩
  | pass id hctl hsettled hnonneg hevent _ _ =>
      obtain ⟨hagrees, hge⟩ := hsem.agrees_settled hinv
        (by rw [hctl]; simp [Ctl.holds]) hsettled
      rw [int64_of_range (by omega) (by omega)] at hnonneg
      exact hevent_law _ hevent (h.pass hagrees (by omega) _)
  | upWakes id hctl hsettled hneg hevent _ _ =>
      obtain ⟨hagrees, -⟩ := hsem.agrees_settled hinv
        (by rw [hctl]; simp [Ctl.holds]) hsettled
      have hmem := hacc.owner_of_ctl hinv (by rw [hctl]; simp [Ctl.share])
        (hmove.curr_of_up hevent).1
      exact hevent_law _ hevent (h.upWakes hagrees hneg hmem)
  | upFrees id hctl hsettled hnonneg hevent _ _ =>
      obtain ⟨hagrees, -⟩ := hsem.agrees_settled hinv
        (by rw [hctl]; simp [Ctl.holds]) hsettled
      have hmem := hacc.owner_of_ctl hinv (by rw [hctl]; simp [Ctl.share])
        (hmove.curr_of_up hevent).1
      exact hevent_law _ hevent (h.upFrees hagrees (by omega) hmem)
  | link t _ hevent _ _ => exact hquiet _ hevent rfl rfl
  | unlink caller t howes hevent _ _ =>
      obtain ⟨-, hagrees⟩ := hsem.agrees_owes hinv howes (by simp)
      rw [hinv.waiting_of_unlink hmove hevent] at hagrees
      have hmem := hacc.owner_of_ctl hinv
        (by rw [hmove.ctl_of_unlink hevent]; simp [Ctl.share, PopSite.share])
        (hinv.queued_of_unlink hmove hevent).1
      exact hevent_law _ hevent (h.unlink hagrees hmem)
  | deliver t _ hevent _ _ => exact hquiet _ hevent rfl rfl
  | leave t _ hevent _ _ => exact hquiet _ hevent rfl rfl
  | empty howes hempty => exact absurd hempty (hsem.ne_empty hinv howes)

end Step

/-- The thread has been taken off the mutex's queue by `unlock` and has not
resumed yet: it is in the hands of the core that took it off, in the ready
queue, or being switched to. -/
def ReadyToEnter (m : Machine Core Sem) (sem : Sem) (id : Nat) : Prop :=
  m.shared.sp (.thread id) = .downRet sem ∧
    ((∃ c, m.At id (.core c .held)) ∨ (∃ node, m.At id (.queued .ready node)) ∨
      ∃ c, m.At id (.core c .running) ∧ (m.cores c).ctl.mode ≠ .normal)

/-- The thread owns the mutex: it is between `lock` and `unlock`, executes
`lock` with the mutex taken, executes `unlock` and has not given it away, or
has been handed the mutex and is yet to resume. -/
inductive Owns (past : List (Event Core Sem)) (m : Machine Core Sem)
    (sem : Sem) (t : Tcb Core) : Prop
  | inside (between : unlocks past sem t < locks past sem t)
  | locking (c : Core) (curr : (m.cores c).pc.curr = some t)
      (ctl : (m.cores c).ctl ∈ [.downUnlock sem, .downReturn sem])
  | unlocking (c : Core) (curr : (m.cores c).pc.curr = some t)
      (ctl : (m.cores c).ctl ∈ [.upWait sem, .upHold sem, .popWait (.up sem),
        .popHold (.up sem)])
  | woken (id : Nat) (thread : t = .thread id) (ready : ReadyToEnter m sem id)

/-- What every run that keeps to the protocol keeps. -/
structure MutexInv (past : List (Event Core Sem)) (m : Machine Core Sem)
    (items : QueueId Sem → List Nat) (sem : Sem) : Prop where
  inv : Inv m items
  counts : SemInv 1 past m items sem
  saved : Saved m items
  accounts : Accounts past m items sem
  permit : OnePermit past sem
  law : History.Along (MutexLaw sem) past

section Runs

variable {m : Machine Core Sem} {items : QueueId Sem → List Nat} {c : Core}
  {out : Outcome Core Sem} {past : List (Event Core Sem)} {sem : Sem}

/-- There is never more than one permit to count. -/
theorem MutexInv.counter_lt (h : MutexInv past m items sem) :
    m.shared.counter sem < 2 ^ 63 - 1 := by
  obtain ⟨debt, -, hagrees⟩ := h.counts.agrees
  have hpermit := h.permit
  have hcounter := hagrees.counter
  unfold OnePermit at hpermit
  omega

theorem MutexInv.move (h : MutexInv past m items sem)
    (hmove : Move c m.shared (m.cores c) out)
    (hcall : ∀ t, out.event = some (.callUp sem t) →
      unlocks past sem t < locks past sem t) :
    MutexInv (past ++ out.event.toList) (m.after c out)
      (itemsAfter (m.cores c).ctl items) sem := by
  obtain ⟨hpermit, hlaw⟩ := h.permit.move h.accounts h.counts h.inv hmove
  refine ⟨h.inv.move hmove, h.counts.move h.inv hmove fun _ => h.counter_lt,
    h.saved.move h.inv hmove, h.accounts.move h.saved h.counts h.inv hmove hcall,
    hpermit, ?_⟩
  cases hevent : out.event with
  | none =>
      rw [Option.toList_none, List.append_nil]
      exact h.law
  | some event => exact h.law.concat (hlaw event hevent)

theorem mutexInv_initial (cnt : Sem → Int) (hcnt : cnt sem = 1) :
    MutexInv [] (initial cnt : Machine Core Sem) (fun _ => []) sem where
  inv := inv_initial cnt
  counts := by
    have hcounts : SemInv (cnt sem).toNat [] (initial cnt : Machine Core Sem)
        (fun _ => []) sem := semInv_initial cnt (by omega) (by omega)
    rwa [hcnt] at hcounts
  saved := saved_initial cnt
  accounts := accounts_initial cnt sem
  permit := rfl
  law := History.along_nil

theorem Move.client_of_callUp {s : Shared Core Sem} {l : CoreState Core Sem}
    (h : Move c s l out) {t : Tcb Core}
    (hevent : out.event = some (.callUp sem t)) :
    l.ctl = .client ∧ l.pc.curr = some t := by
  cases h <;> cases hevent
  exact ⟨rfl, rfl⟩

/-- The step that begins an `unlock` is the call. -/
theorem callUp_of_step {action : Action Sem} {m' : Machine Core Sem}
    {t : Tcb Core} (h : Inv m items)
    (hstep : step c action m = some (some (.callUp sem t), m')) :
    action = .call (.up sem) ∧ (m.cores c).pc.curr = some t := by
  obtain ⟨out, hmove, hevent, -⟩ := h.step_move hstep
  obtain ⟨hctl, hcurr⟩ := hmove.client_of_callUp hevent.symm
  refine ⟨?_, hcurr⟩
  simp only [step, coreStep, hctl, Option.map_eq_some_iff, Prod.mk.injEq] at hstep
  obtain ⟨out', hout, hevent', -⟩ := hstep
  cases action with
  | call op =>
      cases op with
      | up sem' =>
          simp only [call, hcurr, Option.isNone_some, Bool.false_eq_true,
            ↓reduceIte, Option.map_some, Option.some.injEq] at hout
          subst hout
          cases hevent'
          rfl
      | _ =>
          simp only [call, hcurr, Option.isNone_some, Bool.false_eq_true,
            ↓reduceIte, Option.map_some, Option.some.injEq] at hout
          subst hout
          cases hevent'
  | run =>
      simp only [run, hctl] at hout
      cases hout
  | fail => cases hout

theorem Run.mutexInv {cnt : Sem → Int} (hcnt : cnt sem = 1)
    (h : Run cnt (UnlocksOwn sem) past m) :
    ∃ items, MutexInv past m items sem := by
  induction h with
  | boot => exact ⟨_, mutexInv_initial cnt hcnt⟩
  | step _ hmeets hstep ih =>
      obtain ⟨items, hmutex⟩ := ih
      obtain ⟨out, hmove, rfl, rfl⟩ := hmutex.inv.step_move hstep
      refine ⟨_, hmutex.move hmove fun t hevent => ?_⟩
      rw [hevent] at hstep
      obtain ⟨haction, hcurr⟩ := callUp_of_step hmutex.inv hstep
      exact hmeets haction t hcurr

theorem resume_of_share {resume : Resume Sem} (h : 0 < resume.share sem) :
    resume = .downRet sem := by
  cases resume with
  | downRet sem' =>
      by_cases heq : sem' = sem
      · rw [heq]
      · simp [Resume.share, heq] at h
  | _ => exact absurd h (Nat.lt_irrefl 0)

theorem site_of_share {site : PopSite Sem} (h : 0 < site.share sem) :
    site = .up sem := by
  cases site with
  | next => exact absurd h (Nat.lt_irrefl 0)
  | up sem' =>
      by_cases heq : sem' = sem
      · rw [heq]
      · simp [PopSite.share, heq] at h

section

omit [DecidableEq Core]

theorem ctl_of_share {ctl : Ctl Core Sem} (h : 0 < ctl.share sem) :
    ctl ∈ [.downUnlock sem, .downReturn sem] ∨
      ctl ∈ [.upWait sem, .upHold sem, .popWait (.up sem),
        .popHold (.up sem)] := by
  have hif : ∀ {sem' : Sem}, (0 < if sem' = sem then 1 else 0) →
      sem' = sem := by
    intro sem' hpos
    by_contra hne
    simp [hne] at hpos
  cases ctl with
  | downUnlock _ => simp [hif h]
  | downReturn _ => simp [hif h]
  | upWait _ => simp [hif h]
  | upHold _ => simp [hif h]
  | popWait site => simp [site_of_share h]
  | popHold site => simp [site_of_share h]
  | _ => exact absurd h (Nat.lt_irrefl 0)

end

theorem owns_of_core {id : Nat} {spot : Spot}
    (hhas : (m.cores c).Has id spot)
    (hshare : 0 < (m.cores c).share sem (m.shared.sp (.thread id)) spot) :
    Owns past m sem (.thread id) := by
  have hsaved : 0 < (m.shared.sp (.thread id)).share sem →
      m.shared.sp (.thread id) = .downRet sem := resume_of_share
  cases spot with
  | running =>
      by_cases hmode : (m.cores c).ctl.mode = .normal
      · simp only [CoreState.share, hmode] at hshare
        rcases ctl_of_share hshare with hctl | hctl
        · exact .locking c hhas.1 hctl
        · exact .unlocking c hhas.1 hctl
      · have hsp : 0 < (m.shared.sp (.thread id)).share sem := by
          cases hcase : (m.cores c).ctl.mode <;>
            simp_all only [CoreState.share, not_true_eq_false]
        exact .woken id rfl ⟨hsaved hsp, .inr (.inr ⟨c, hhas, hmode⟩)⟩
  | held => exact .woken id rfl ⟨hsaved hshare, .inl ⟨c, hhas⟩⟩
  | _ => exact absurd hshare (Nat.lt_irrefl 0)

/-- Every thread has an account, and what it has coming makes it an owner. -/
theorem MutexInv.ledger (h : MutexInv past m items sem) (t : Tcb Core) :
    ∃ share, Ledger past sem t share ∧ (0 < share → Owns past m sem t) := by
  cases t with
  | idle c => exact ⟨0, h.accounts.idle c, nofun⟩
  | thread id =>
      have hle := h.inv.amount_le_one (.tcb id)
      by_cases hgone : m.shared.amount (.tcb id) = 0
      · exact ⟨0, h.accounts.gone id hgone, nofun⟩
      · obtain ⟨place, hat⟩ := h.inv.exists_place
          (show m.shared.amount (.tcb id) = 1 by omega)
        cases place with
        | core c spot =>
            exact ⟨_, h.accounts.core c id spot hat, owns_of_core hat⟩
        | queued q node =>
            have hqueued := hat
            obtain ⟨nodes, hlinked, hnode, hvalue⟩ := hqueued
            rw [hlinked.unique (h.inv.linked q)] at hnode
            refine ⟨_, h.accounts.queued q node hnode id hvalue, ?_⟩
            intro hshare
            cases q with
            | ready =>
                exact .woken id rfl
                  ⟨resume_of_share hshare, .inr (.inl ⟨node, hat⟩)⟩
            | waiting _ => exact absurd hshare (Nat.lt_irrefl 0)

theorem MutexInv.owner_of_ready (h : MutexInv past m items sem) {id : Nat}
    (hready : ReadyToEnter m sem id) : .thread id ∈ ownersOf past sem := by
  obtain ⟨hsp, ⟨c, hat⟩ | ⟨node, hat⟩ | ⟨c, hat, hmode⟩⟩ := hready
  · refine (h.accounts.core c id .held hat).owner ?_
    simp [CoreState.share, hsp, Resume.share]
  · obtain ⟨nodes, hlinked, hnode, hvalue⟩ := hat
    rw [hlinked.unique (h.inv.linked .ready)] at hnode
    refine (h.accounts.queued .ready node hnode id hvalue).owner ?_
    simp [QueueId.share, hsp, Resume.share]
  · refine (h.accounts.core c id .running hat).owner ?_
    cases hcase : (m.cores c).ctl.mode with
    | normal => exact absurd hcase hmode
    | _ => simp [CoreState.share, hcase, hsp, Resume.share]

theorem MutexInv.owns_iff (h : MutexInv past m items sem) (t : Tcb Core) :
    Owns past m sem t ↔ t ∈ ownersOf past sem := by
  constructor
  · intro howns
    cases howns with
    | inside hbetween =>
        obtain ⟨share, hledger, -⟩ := h.ledger t
        have hbalance := hledger.balance
        exact List.count_pos_iff.mp (by omega)
    | locking c hcurr hctl =>
        refine h.accounts.owner_of_ctl h.inv ?_ hcurr
        simp only [List.mem_cons, List.not_mem_nil, or_false] at hctl
        rcases hctl with hctl | hctl <;> simp [hctl, Ctl.share]
    | unlocking c hcurr hctl =>
        refine h.accounts.owner_of_ctl h.inv ?_ hcurr
        simp only [List.mem_cons, List.not_mem_nil, or_false] at hctl
        rcases hctl with hctl | hctl | hctl | hctl <;>
          simp [hctl, Ctl.share, PopSite.share]
    | woken id hthread hready => exact hthread ▸ h.owner_of_ready hready
  · intro hmem
    obtain ⟨share, hledger, howns⟩ := h.ledger t
    by_cases hshare : 0 < share
    · exact howns hshare
    · have hbalance := hledger.balance
      have hpos := List.count_pos_iff.mpr hmem
      exact .inside (by omega)

/-- With a thread blocked and not handed the mutex there is an owner. -/
theorem MutexInv.exists_owner (h : MutexInv past m items sem)
    (hne : wokenOf past sem ≠ blockedOf past sem) :
    ∃ t, ownersOf past sem = [t] := by
  have hzero : (specOf 1 past sem).permits = 0 := by
    obtain ⟨debt, -, hagrees⟩ := h.counts.agrees
    by_cases hpop : debt = .pop
    · exact hagrees.pop hpop
    · refine (specOf 1 past sem).exclusive.resolve_right fun hnil => hne ?_
      refine (hagrees.woken_eq_blocked ?_).mpr hnil
      cases debt <;> first | rfl | exact absurd rfl hpop
  have hpermit := h.permit
  unfold OnePermit at hpermit
  exact List.length_eq_one_iff.mp (by omega)

theorem MutexInv.blocked_of_queue (h : MutexInv past m items sem)
    (hne : m.shared.queue (.waiting sem) ≠ .empty) :
    wokenOf past sem ≠ blockedOf past sem := by
  intro heq
  obtain ⟨debt, -, hagrees⟩ := h.counts.agrees
  have hqueue := hagrees.queue
  rw [← hagrees.blocked, ← heq, List.append_assoc] at hqueue
  have hnil : m.waiting items sem = [] :=
    (List.append_eq_nil_iff.mp (List.append_right_eq_self.mp hqueue)).1
  have hlinked := h.inv.linked (.waiting sem)
  rw [List.map_eq_nil_iff.mp hnil] at hlinked
  exact hne hlinked.eq_empty

/-- In every run in which threads unlock only what they have locked: at most
one thread is between `lock` and `unlock`, and not twice; if a thread is
blocked then exactly one thread owns the mutex; and it is handed over to the
threads in the order in which they blocked, none of which is overtaken. -/
theorem run_mutex_excludes (cnt : Sem → Int) (sem : Sem) (hcnt : cnt sem = 1)
    (h : Run cnt (UnlocksOwn sem) past m) :
    (∀ t u, unlocks past sem t < locks past sem t →
      unlocks past sem u < locks past sem u → t = u) ∧
    (∀ t, locks past sem t ≤ unlocks past sem t + 1) ∧
    (∀ t, Owns past m sem t ↔ ownersOf past sem = [t]) ∧
    (m.shared.queue (.waiting sem) ≠ .empty ∨
        wokenOf past sem ≠ blockedOf past sem →
      ∃! t, Owns past m sem t) ∧
    (∀ c, (m.cores c).ctl ≠ .upPanic sem) ∧
    History.Along (MutexLaw sem) past := by
  obtain ⟨items, hmutex⟩ := h.mutexInv hcnt
  have howns : ∀ t, Owns past m sem t ↔ ownersOf past sem = [t] := by
    intro t
    rw [hmutex.owns_iff]
    exact ⟨fun hmem => (hmutex.permit.owners_eq hmem).1,
      fun heq => by simp [heq]⟩
  have hunique : ∀ {t u}, Owns past m sem t → Owns past m sem u → t = u := by
    intro t u ht hu
    rw [howns] at ht hu
    simpa [ht] using hu
  refine ⟨fun t u ht hu => hunique (.inside ht) (.inside hu), fun t => ?_,
    howns, fun hblocked => ?_, hmutex.counts.calm, hmutex.law⟩
  · obtain ⟨share, hledger, -⟩ := hmutex.ledger t
    have hbalance := hledger.balance
    have hle : (ownersOf past sem).count t ≤ (ownersOf past sem).length :=
      List.count_le_length
    have hpermit := hmutex.permit
    unfold OnePermit at hpermit
    omega
  · obtain ⟨t, ht⟩ := hmutex.exists_owner
      (hblocked.elim hmutex.blocked_of_queue fun hne => hne)
    exact ⟨t, (howns t).mpr ht, fun u hu => hunique hu ((howns t).mpr ht)⟩

end Runs

instance {sem : Sem} {past : List (Event Core Sem)} {m : Machine Core Sem}
    {c : Core} {action : Action Sem} :
    Decidable (UnlocksOwn sem past m c action) :=
  inferInstanceAs (Decidable (action = .call (.up sem) →
    ∀ t ∈ (m.cores c).pc.curr, unlocks past sem t < locks past sem t))

/-- Two threads: the first locks the mutex and yields, the second blocks. -/
def contendSchedule : List (Unit × Action Unit) :=
  [((), .call .go)] ++ List.replicate 8 ((), .run) ++ bootSchedule ++
    [((), .call (.down ()))] ++ List.replicate 3 ((), .run) ++
    [((), .call .yield)] ++ List.replicate 16 ((), .run) ++
    [((), .call (.down ()))] ++ List.replicate 2 ((), .run)

theorem run_mutex_excludes_contend :
    ∃ (past : List (Event Unit Unit)) (m : Machine Unit Unit),
      Run (fun _ => 1) (UnlocksOwn ()) past m ∧
      wokenOf past () ≠ blockedOf past () ∧
      locks past () (.thread 0) = 1 ∧ ∃! t, Owns past m () t := by
  have hfollow : ∃ past m, follow (initial fun _ => 1) contendSchedule =
      some (past, m) ∧ wokenOf past () ≠ blockedOf past () ∧
      locks past () (.thread 0) = 1 :=
    ⟨_, _, rfl, by decide, by decide⟩
  obtain ⟨past, m, hrun, hblocked, hlocks⟩ := hfollow
  have hreach : Run (fun _ => 1) (UnlocksOwn ()) past m :=
    Run.follow .boot (by decide) hrun
  obtain ⟨-, -, -, howner, -⟩ :=
    run_mutex_excludes (fun _ => 1) () rfl hreach
  exact ⟨past, m, hreach, hblocked, hlocks, howner (.inr hblocked)⟩

end Threads

end IntroOs
