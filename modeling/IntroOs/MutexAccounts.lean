/-
The accounts of a mutex hold in every state: what a thread has coming is
where the thread is, on whatever core or in whatever queue.
-/
import IntroOs.MutexLedger

namespace IntroOs

namespace Threads

variable {Core Sem : Type} [DecidableEq Core] [DecidableEq Sem]

/-- The accounts of all threads, from where they are. -/
structure Accounts (past : List (Event Core Sem)) (m : Machine Core Sem)
    (items : QueueId Sem → List Nat) (sem : Sem) : Prop where
  core : ∀ c id spot, (m.cores c).Has id spot →
    Ledger past sem (.thread id)
      ((m.cores c).share sem (m.shared.sp (.thread id)) spot)
  queued : ∀ q, ∀ node ∈ items q, ∀ id,
    (m.shared.cells node).value = .thread id →
    Ledger past sem (.thread id)
      (QueueId.share sem (m.shared.sp (.thread id)) q)
  gone : ∀ id, m.shared.amount (.tcb id) = 0 → Ledger past sem (.thread id) 0
  idle : ∀ c, Ledger past sem (.idle c) 0

section Step

variable {m : Machine Core Sem} {items : QueueId Sem → List Nat} {c : Core}
  {out : Outcome Core Sem} {past : List (Event Core Sem)} {sem : Sem}

/-- Only running threads and a thread taken off the queue change accounts. -/
theorem Move.delta_cases {s : Shared Core Sem} {l : CoreState Core Sem}
    {idleSp : Resume Sem} (h : Move c s l out)
    (hok : CtlOk c idleSp l.pc l.ctl) {t : Tcb Core}
    (hdelta : out.event.elim 0 (Event.delta sem t) ≠ 0) :
    (∃ id, t = .thread id ∧ l.Has id .running) ∨
      ∃ caller q, out.event = some (.unlink caller q t) := by
  have hrunning : ∀ {prev : Option (Tcb Core)} {id : Nat} {ctl : Ctl Core Sem},
      (.thread id : Tcb Core) = t →
      ∃ id', t = .thread id' ∧ (⟨clear prev (some (.thread id)), ctl⟩ :
        CoreState Core Sem).Has id' .running := by
    rintro prev id ctl rfl
    exact ⟨id, rfl, has_running rfl⟩
  cases h with
  | @unlink pc site caller node rest hcurr _ =>
      by_cases hvalue : (s.cells node).value = t
      · right
        exact ⟨caller, site.queue, by rw [hvalue]⟩
      · left
        have hcaller : caller = t ∧ site.queue ≠ .ready := by
          by_contra hne
          refine hdelta ?_
          cases site with
          | next => simp [Event.delta, Event.ownerDelta, PopSite.queue]
          | up sem' =>
              have hne' : caller ≠ t := fun heq =>
                hne ⟨heq, by simp [PopSite.queue]⟩
              simp [Event.delta, Event.ownerDelta, PopSite.queue, hvalue, hne']
        cases site with
        | next => exact absurd rfl hcaller.2
        | up sem' =>
            obtain ⟨-, prev, id, rfl⟩ := hok
            cases hcurr
            exact hrunning hcaller.1
  | pass _ =>
      refine .inl (hrunning ?_)
      by_contra hne
      simp [Event.delta, Event.ownerDelta, hne] at hdelta
  | downUnlock =>
      refine .inl (hrunning ?_)
      by_contra hne
      simp [Event.delta, Event.ownerDelta, hne] at hdelta
  | downReturn =>
      refine .inl (hrunning ?_)
      by_contra hne
      simp [Event.delta, Event.ownerDelta, hne] at hdelta
  | callUp =>
      refine .inl (hrunning ?_)
      by_contra hne
      simp [Event.delta, Event.ownerDelta, hne] at hdelta
  | upWakes _ =>
      refine .inl (hrunning ?_)
      by_contra hne
      simp [Event.delta, Event.ownerDelta, hne] at hdelta
  | upFrees _ =>
      refine .inl (hrunning ?_)
      by_contra hne
      simp [Event.delta, Event.ownerDelta, hne] at hdelta
  | _ => exact absurd (by simp [Event.delta, Event.ownerDelta]) hdelta

theorem Move.held_of_unlink {s : Shared Core Sem} {l : CoreState Core Sem}
    (h : Move c s l out) {caller : Tcb Core} {q : QueueId Sem} {id : Nat}
    (hevent : out.event = some (.unlink caller q (.thread id))) :
    out.core.Has id .held := by
  cases h with
  | unlink _ _ =>
      simp only [Option.some.injEq, Event.unlink.injEq] at hevent
      obtain ⟨-, -, hvalue⟩ := hevent
      exact has_held (congrArg some hvalue)
  | _ => cases hevent

theorem Move.toDelete_of_freeTcb {s : Shared Core Sem}
    {l : CoreState Core Sem} (h : Move c s l out) {id : Nat}
    (hevent : out.event = some (.freeTcb c (.thread id))) :
    l.Has id .toDelete := by
  cases h <;> cases hevent
  exact ⟨rfl, by simp [Ctl.done, Done.carriedOut]⟩

theorem Ledger.after {t : Tcb Core} {share share' : Nat}
    {event : Option (Event Core Sem)} (h : Ledger past sem t share)
    (hdelta : (share' : Int) = share + event.elim 0 (Event.delta sem t))
    (hcall : event = some (.callUp sem t) →
      unlocks past sem t < locks past sem t)
    (hself : ∀ caller q, event ≠ some (.unlink caller q caller)) :
    Ledger (past ++ event.toList) sem t share' := by
  cases event with
  | none =>
      have heq : share' = share := by
        simp only [Option.elim_none] at hdelta
        omega
      rw [heq, Option.toList_none, List.append_nil]
      exact h
  | some event =>
      exact h.concat hdelta (fun heq => hcall (by rw [heq]))
        fun caller q heq => hself caller q (by rw [heq])

/-- A thread taken off a queue was in it. -/
theorem Inv.queued_of_unlink (h : Inv m items)
    (hmove : Move c m.shared (m.cores c) out) {caller t : Tcb Core}
    {q : QueueId Sem} (hevent : out.event = some (.unlink caller q t)) :
    (m.cores c).pc.curr = some caller ∧ ∃ node ∈ items q, ∃ id,
      (m.shared.cells node).value = .thread id ∧ t = .thread id := by
  rcases hmove.queue_cases with ⟨q, node, value, site, -, hout⟩ |
    ⟨site, caller', node, rest, -, hcurr, hfound, hout⟩ | hkept
  · rw [hout] at hevent
    cases hevent
  · rw [hout] at hevent
    simp only [Option.some.injEq, Event.unlink.injEq] at hevent
    obtain ⟨rfl, rfl, rfl⟩ := hevent
    obtain ⟨left, tail, hitems, -, -⟩ := h.unlink_spec hfound
    obtain ⟨id, hvalue⟩ := h.unlink_value hfound
    exact ⟨hcurr, node, by simp [hitems], id, hvalue, hvalue⟩
  · exact absurd hevent (hkept.unlink _ _ _)

theorem Inv.unlink_ne (h : Inv m items)
    (hmove : Move c m.shared (m.cores c) out) {caller t : Tcb Core}
    {q : QueueId Sem} (hevent : out.event = some (.unlink caller q t)) :
    caller ≠ t := by
  rintro rfl
  obtain ⟨hcurr, node, hnode, id, hvalue, rfl⟩ := h.queued_of_unlink hmove hevent
  have hplace := h.place_unique
    (show m.At id (.core c .running) from has_running hcurr)
    (show m.At id (.queued q node) from ⟨items q, h.linked q, hnode, hvalue⟩)
  cases hplace

/-- The accounts of threads a move has nothing to do with. -/
theorem Inv.ledger_other (h : Inv m items)
    (hmove : Move c m.shared (m.cores c) out) {id share : Nat}
    (hledger : Ledger past sem (.thread id) share)
    (hcore : ¬ (m.cores c).Has id .running)
    (hunlink : ∀ caller q, out.event ≠ some (.unlink caller q (.thread id))) :
    Ledger (past ++ out.event.toList) sem (.thread id) share := by
  have hzero : out.event.elim 0 (Event.delta sem (.thread id)) = 0 := by
    by_contra hdelta
    rcases hmove.delta_cases (h.ctl c) hdelta with ⟨id', heq, hhas⟩ |
      ⟨caller, q, hevent⟩
    · cases heq
      exact hcore hhas
    · exact hunlink caller q hevent
  refine hledger.after (by rw [hzero, Int.add_zero]) (fun hcall => ?_)
    fun caller q hself => h.unlink_ne hmove hself rfl
  simp [hcall, Event.delta, Event.ownerDelta] at hzero

theorem Accounts.core_step (hacc : Accounts past m items sem)
    (hsaved : Saved m items) (hsem : SemInv 1 past m items sem)
    (h : Inv m items) (hmove : Move c m.shared (m.cores c) out)
    (hcall : ∀ t, out.event = some (.callUp sem t) →
      unlocks past sem t < locks past sem t)
    (c' : Core) (id : Nat) (spot : Spot)
    (hhas : ((m.after c out).cores c').Has id spot) :
    Ledger (past ++ out.event.toList) sem (.thread id)
      (((m.after c out).cores c').share sem (out.shared.sp (.thread id))
        spot) := by
  have hself : ∀ caller q, out.event ≠ some (.unlink caller q caller) :=
    fun caller q hevent => h.unlink_ne hmove hevent rfl
  by_cases hcore : c' = c
  · subst hcore
    rw [after_core_self] at hhas ⊢
    have hfound : (m.cores c').ctl = .popHold (.up sem) →
        m.shared.unlink (.waiting sem) ≠ none :=
      fun hctl => hsem.ne_empty h (debt_of_popHold (h.ctl c') hctl)
    rcases hmove.shares (h.ctl c') hfound
      (fun _ _ _ hevent => h.unlink_ne hmove hevent) id spot hhas with
      ⟨before, hbefore, hshare⟩ | ⟨hcreate, rfl, hsp⟩ |
        ⟨caller, q, hunlink, rfl, hsp⟩
    · exact (hacc.core c' id before hbefore).after hshare (hcall _) hself
    · have hzero := h.building c' id
        (by rw [hmove.builds_of_create hcreate]; rfl)
      refine (hacc.gone id hzero).after ?_ (hcall _) hself
      rw [hcreate]
      simp [CoreState.share, hsp, Resume.share, Event.delta, Event.ownerDelta]
    · obtain ⟨-, node, hnode, id', hvalue, heq⟩ :=
        h.queued_of_unlink hmove hunlink
      cases heq
      refine (hacc.queued q node hnode id hvalue).after ?_ (hcall _) hself
      rw [hunlink, hsp]
      cases q with
      | ready =>
          simp [CoreState.share, QueueId.share, Event.delta, Event.ownerDelta]
      | waiting sem' =>
          rw [hsaved.queued sem' node hnode id hvalue]
          by_cases hsem' : sem' = sem <;>
            simp [CoreState.share, QueueId.share, Resume.share, Event.delta,
              Event.ownerDelta, hsem']
  · rw [after_core_of_ne hcore] at hhas ⊢
    have hat : m.At id (.core c' spot) := hhas
    have hplace : ∀ spot', (.core c' spot : Place Core Sem) ≠ .core c spot' := by
      intro spot' heq
      cases heq
      exact hcore rfl
    rw [hmove.sp_of_subject_ne (h.subject_ne hmove hat hplace)]
    refine h.ledger_other hmove (hacc.core c' id spot hhas) ?_ ?_
    · intro hrunning
      exact hplace .running (h.place_unique hat
        (show m.At id (.core c .running) from hrunning))
    · intro caller q hunlink
      obtain ⟨-, node, hnode, id', hvalue, heq⟩ :=
        h.queued_of_unlink hmove hunlink
      cases heq
      have hqueued := h.place_unique hat
        (show m.At id (.queued q node) from
          ⟨items q, h.linked q, hnode, hvalue⟩)
      cases hqueued

/-- A thread that is linked takes its share with it into the queue. -/
theorem Accounts.link_share (hacc : Accounts past m items sem)
    (hsaved : Saved m items) (h : Inv m items) {q : QueueId Sem} {node id : Nat}
    {site : PushSite Sem}
    (hctl : (m.cores c).ctl = .pushHold q node (.thread id) site) :
    Ledger past sem (.thread id)
      (QueueId.share sem (m.shared.sp (.thread id)) q) := by
  have hok := h.ctl c
  rw [hctl] at hok
  have hheld : site.hand (.thread id : Tcb Core) = some (.thread id) →
      (m.cores c).Has id .held := by
    intro hhand
    refine has_held ?_
    rw [hctl]
    exact hhand
  cases site with
  | go =>
      obtain ⟨rfl, -, -⟩ := hok
      exact hacc.core c id .held (hheld rfl)
  | up sem' =>
      obtain ⟨rfl, -, -⟩ := hok
      exact hacc.core c id .held (hheld rfl)
  | deferred =>
      obtain ⟨id', sem', rfl, -, hpc⟩ := hok
      refine hacc.core c id .toQueue ⟨?_, ?_⟩
      · change (m.cores c).pc.toQueue = _
        rw [hpc]
        rfl
      · rw [hctl]
        simp [Ctl.done, Done.carriedOut]
  | reschedule =>
      obtain ⟨id', rfl, -, hpc⟩ := hok
      have hhas : (m.cores c).Has id .toReschedule := by
        refine ⟨?_, ?_⟩
        · change (m.cores c).pc.toReschedule = _
          rw [hpc]
          rfl
        · rw [hctl]
          simp [Ctl.done, Done.carriedOut]
      have hsp := hsaved.core c id .toReschedule .yieldRet hpc .yield
        (by simp [hctl, Ctl.mode]) hhas
      rw [hsp]
      exact hacc.core c id .toReschedule hhas

theorem Accounts.queued_step (hacc : Accounts past m items sem)
    (hsaved : Saved m items) (h : Inv m items)
    (hmove : Move c m.shared (m.cores c) out) (q : QueueId Sem) (node : Nat)
    (hnode : node ∈ itemsAfter (m.cores c).ctl items q) (id : Nat)
    (hvalue : (out.shared.cells node).value = .thread id) :
    Ledger (past ++ out.event.toList) sem (.thread id)
      (QueueId.share sem (out.shared.sp (.thread id)) q) := by
  have hnew := h.move hmove
  have hqueued : (m.after c out).At id (.queued q node) :=
    ⟨_, hnew.linked q, hnode, hvalue⟩
  rcases h.mem_itemsAfter hmove hnode with ⟨hnode, hsame⟩ |
    ⟨value, site, hctl, hevent, hvalue'⟩
  · rw [hsame] at hvalue
    have hat : m.At id (.queued q node) :=
      ⟨items q, h.linked q, hnode, hvalue⟩
    rw [hmove.sp_of_subject_ne (h.subject_ne hmove hat nofun)]
    refine h.ledger_other hmove (hacc.queued q node hnode id hvalue) ?_ ?_
    · intro hrunning
      have hplace := h.place_unique hat
        (show m.At id (.core c .running) from hrunning)
      cases hplace
    · intro caller q' hunlink
      have hheld : (m.after c out).At id (.core c .held) := by
        change ((m.after c out).cores c).Has id .held
        rw [after_core_self]
        exact hmove.held_of_unlink hunlink
      have hplace := hnew.place_unique hqueued hheld
      cases hplace
  · rw [hvalue'] at hvalue
    subst hvalue
    rw [hmove.sp_of_subject_ne (by rw [hevent]; exact nofun), hevent]
    refine (hacc.link_share hsaved h hctl).after ?_ nofun nofun
    simp [Event.delta, Event.ownerDelta]

theorem Accounts.gone_step (hacc : Accounts past m items sem)
    (h : Inv m items) (hmove : Move c m.shared (m.cores c) out) (id : Nat)
    (hzero : out.shared.amount (.tcb id) = 0) :
    Ledger (past ++ out.event.toList) sem (.thread id) 0 := by
  by_cases hfree : out.event = some (.freeTcb c (.thread id))
  · have hhas : (m.cores c).Has id .toDelete := hmove.toDelete_of_freeTcb hfree
    rw [hfree]
    refine (hacc.core c id .toDelete hhas).after ?_ nofun nofun
    simp [CoreState.share, Event.delta, Event.ownerDelta]
  · have hle := hmove.amount_tcb hfree
    have hbefore : m.shared.amount (.tcb id) = 0 := by omega
    refine h.ledger_other hmove (hacc.gone id hbefore) ?_ ?_
    · intro hrunning
      have hone := h.amount_of_has hrunning
      omega
    · intro caller q hunlink
      obtain ⟨-, node, hnode, id', hvalue, heq⟩ :=
        h.queued_of_unlink hmove hunlink
      cases heq
      have hone := h.books.amount_of_mem (h.mem_own_of_at
        (show m.At id (.queued q node) from
          ⟨items q, h.linked q, hnode, hvalue⟩))
      omega

theorem Accounts.idle_step (hacc : Accounts past m items sem)
    (h : Inv m items) (hmove : Move c m.shared (m.cores c) out) (c' : Core) :
    Ledger (past ++ out.event.toList) sem (.idle c') 0 := by
  have hzero : out.event.elim 0 (Event.delta sem (.idle c')) = 0 := by
    by_contra hdelta
    rcases hmove.delta_cases (h.ctl c) hdelta with ⟨id, heq, -⟩ |
      ⟨caller, q, hevent⟩
    · cases heq
    · obtain ⟨-, node, -, id, -, heq⟩ := h.queued_of_unlink hmove hevent
      cases heq
  refine (hacc.idle c').after (by rw [hzero]; rfl) (fun hcall => ?_)
    fun caller q hself => h.unlink_ne hmove hself rfl
  simp [hcall, Event.delta, Event.ownerDelta] at hzero

theorem Accounts.move (hacc : Accounts past m items sem)
    (hsaved : Saved m items) (hsem : SemInv 1 past m items sem)
    (h : Inv m items) (hmove : Move c m.shared (m.cores c) out)
    (hcall : ∀ t, out.event = some (.callUp sem t) →
      unlocks past sem t < locks past sem t) :
    Accounts (past ++ out.event.toList) (m.after c out)
      (itemsAfter (m.cores c).ctl items) sem where
  core := hacc.core_step hsaved hsem h hmove hcall
  queued := hacc.queued_step hsaved h hmove
  gone := hacc.gone_step h hmove
  idle := hacc.idle_step h hmove

theorem accounts_initial (cnt : Sem → Int) (sem : Sem) :
    Accounts [] (initial cnt : Machine Core Sem) (fun _ => []) sem where
  core := by
    rintro c id (_ | _ | _ | _ | _) ⟨hslot, -⟩ <;> cases hslot
  queued := fun _ _ hnode => absurd hnode List.not_mem_nil
  gone := fun id _ => ledger_nil sem (.thread id)
  idle := fun c => ledger_nil sem (.idle c)

end Step

end Threads

end IntroOs
