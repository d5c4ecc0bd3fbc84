/-
Who owns a mutex, read off the history, and what each thread still has coming
from where it is: a grant it has not returned with, or an unlock that has not
given the mutex away.
-/
import IntroOs.SemaphoreAccounts
import IntroOs.ThreadsSaved

namespace IntroOs

namespace Threads

variable {Core Sem : Type} [DecidableEq Core] [DecidableEq Sem]

/-- The owners after an event: a `down` that finds a permit makes one, an `up`
hands over to the thread it takes off the queue, or gives the permit back. -/
def nextOwners (sem : Sem) (owners : List (Tcb Core)) :
    Event Core Sem → List (Tcb Core)
  | .pass sem' t => if sem' = sem then t :: owners else owners
  | .unlink caller q t =>
      if q = .waiting sem then t :: owners.erase caller else owners
  | .up sem' t wakes =>
      if sem' = sem ∧ wakes = false then owners.erase t else owners
  | _ => owners

def ownersOf (past : List (Event Core Sem)) (sem : Sem) : List (Tcb Core) :=
  past.foldl (nextOwners sem) []

/-- How often `lock` has returned to `t`. -/
def locks (past : List (Event Core Sem)) (sem : Sem) (t : Tcb Core) : Nat :=
  past.count (.downRet sem t)

/-- How often `t` has called `unlock`. -/
def unlocks (past : List (Event Core Sem)) (sem : Sem) (t : Tcb Core) : Nat :=
  past.count (.callUp sem t)

/-- How often an event makes `t` an owner more. -/
def Event.ownerDelta (sem : Sem) (t : Tcb Core) : Event Core Sem → Int
  | .pass sem' u => if sem' = sem ∧ u = t then 1 else 0
  | .up sem' u wakes =>
      if sem' = sem ∧ u = t ∧ wakes = false then -1 else 0
  | .unlink caller q u =>
      if q = .waiting sem then
        if u = t then 1 else if caller = t then -1 else 0
      else 0
  | _ => 0

/-- What an event adds to the share of `t`. -/
def Event.delta (sem : Sem) (t : Tcb Core) (event : Event Core Sem) : Int :=
  event.ownerDelta sem t + [event].count (.callUp sem t) -
    [event].count (.downRet sem t)

/-- The account of `t`: it owns the mutex as often as it is between `lock` and
`unlock`, and by its share, what it has coming from where it is. -/
structure Ledger (past : List (Event Core Sem)) (sem : Sem) (t : Tcb Core)
    (share : Nat) : Prop where
  balance : (ownersOf past sem).count t + unlocks past sem t =
    locks past sem t + share
  unlocks_le : unlocks past sem t ≤ locks past sem t

section Account

variable {past : List (Event Core Sem)} {sem : Sem} {t : Tcb Core}
  {share share' : Nat} {event : Event Core Sem}

theorem ledger_nil (sem : Sem) (t : Tcb Core) :
    Ledger ([] : List (Event Core Sem)) sem t 0 :=
  ⟨rfl, Nat.le_refl _⟩

theorem ownersOf_concat (past : List (Event Core Sem)) (sem : Sem)
    (event : Event Core Sem) :
    ownersOf (past ++ [event]) sem = nextOwners sem (ownersOf past sem) event := by
  simp [ownersOf]

theorem Ledger.owner (h : Ledger past sem t share) (hshare : 0 < share) :
    t ∈ ownersOf past sem := by
  have hbalance := h.balance
  have hle := h.unlocks_le
  exact List.count_pos_iff.mp (by omega)

/-- Giving the mutex away takes an owner off the list. -/
theorem count_nextOwners {owners : List (Tcb Core)}
    (hself : ∀ caller q, event ≠ .unlink caller q caller)
    (howner : event.ownerDelta sem t < 0 → t ∈ owners) :
    ((nextOwners sem owners event).count t : Int) =
      owners.count t + event.ownerDelta sem t := by
  have herase : ∀ u, u = t → t ∈ owners →
      ((owners.erase u).count t : Int) = owners.count t - 1 := by
    rintro u rfl hmem
    have hpos := List.count_pos_iff.mpr hmem
    rw [List.count_erase_self]
    omega
  cases event with
  | pass sem' u =>
      by_cases hsem : sem' = sem <;> by_cases hu : u = t <;>
        simp [nextOwners, Event.ownerDelta, hsem, hu]
  | up sem' u wakes =>
      by_cases hrelease : sem' = sem ∧ wakes = false
      · obtain ⟨rfl, rfl⟩ := hrelease
        simp only [nextOwners, Event.ownerDelta, and_self, and_true, true_and,
          ↓reduceIte] at howner ⊢
        by_cases hu : u = t
        · rw [if_pos hu] at howner ⊢
          rw [herase u hu (howner (by omega))]
          omega
        · rw [if_neg hu, List.count_erase_of_ne (Ne.symm hu), Int.add_zero]
      · have hnone : ¬ (sem' = sem ∧ u = t ∧ wakes = false) :=
          fun ⟨hsem, _, hwakes⟩ => hrelease ⟨hsem, hwakes⟩
        simp only [nextOwners, Event.ownerDelta, if_neg hrelease, if_neg hnone,
          Int.add_zero]
  | unlink caller q u =>
      by_cases hq : q = .waiting sem
      · have hne : caller ≠ u := fun heq => hself caller q (by rw [heq])
        simp only [nextOwners, Event.ownerDelta, hq, ↓reduceIte] at howner ⊢
        by_cases hu : u = t
        · rw [if_pos hu, hu, List.count_cons_self,
            List.count_erase_of_ne (hu ▸ hne.symm)]
          omega
        · rw [if_neg hu] at howner ⊢
          rw [List.count_cons_of_ne hu]
          by_cases hcaller : caller = t
          · rw [if_pos hcaller] at howner ⊢
            rw [herase caller hcaller (howner (by omega))]
            omega
          · rw [if_neg hcaller, List.count_erase_of_ne (Ne.symm hcaller),
              Int.add_zero]
      · simp [nextOwners, Event.ownerDelta, hq]
  | _ => simp [nextOwners, Event.ownerDelta]

/-- An event changes the account of a thread by what it is about. -/
theorem Ledger.concat (h : Ledger past sem t share)
    (hdelta : (share' : Int) = share + event.delta sem t)
    (hcall : event = .callUp sem t → unlocks past sem t < locks past sem t)
    (hself : ∀ caller q, event ≠ .unlink caller q caller) :
    Ledger (past ++ [event]) sem t share' := by
  have hbalance := h.balance
  have hle := h.unlocks_le
  have howner : event.ownerDelta sem t < 0 → t ∈ ownersOf past sem := by
    intro hneg
    have hnone : [event].count (.callUp sem t) = 0 := by
      rw [List.count_eq_zero, List.mem_singleton]
      rintro rfl
      simp [Event.ownerDelta] at hneg
    apply h.owner
    unfold Event.delta at hdelta
    omega
  have howners := count_nextOwners hself howner
  unfold Event.delta at hdelta
  unfold locks unlocks at hbalance hle hcall
  refine ⟨?_, ?_⟩
  · rw [ownersOf_concat, locks, unlocks, List.count_append, List.count_append]
    omega
  · rw [locks, unlocks, List.count_append, List.count_append]
    by_cases hup : event = .callUp sem t
    · have hlt := hcall hup
      have hone : [event].count (.callUp sem t) ≤ 1 := List.count_le_length
      omega
    · have hnone : [event].count (.callUp sem t) = 0 :=
        List.count_eq_zero.mpr fun hmem => hup (List.mem_singleton.mp hmem).symm
      omega

end Account

def QueueId.share (sem : Sem) (sp : Resume Sem) : QueueId Sem → Nat
  | .ready => sp.share sem
  | .waiting _ => 0

section Shares

variable {c : Core} {s : Shared Core Sem} {l l' : CoreState Core Sem}
  {out : Outcome Core Sem} {sem : Sem}

/-- Every thread the core has afterwards it had before, with the same
share. -/
def KeepsShares (sem : Sem) (l l' : CoreState Core Sem) : Prop :=
  ∀ id spot, l'.Has id spot → ∃ before, l.Has id before ∧
    ∀ sp : Resume Sem, l'.share sem sp spot = l.share sem sp before

section

omit [DecidableEq Core]

theorem Keeps.shares (h : Keeps c l l') : KeepsShares sem l l' := by
  intro id spot hhas
  obtain ⟨before, hbefore, -, hshare⟩ := h id spot hhas
  exact ⟨before, hbefore, hshare sem⟩

end

/-- What a move does to the shares of the threads its core has afterwards. -/
def MovesShares (sem : Sem) (s : Shared Core Sem) (l : CoreState Core Sem)
    (out : Outcome Core Sem) : Prop :=
  ∀ id spot, out.core.Has id spot →
    (∃ before, l.Has id before ∧
      (out.core.share sem (out.shared.sp (.thread id)) spot : Int) =
        l.share sem (s.sp (.thread id)) before +
          out.event.elim 0 (Event.delta sem (.thread id))) ∨
    (out.event = some (.create (.thread id)) ∧ spot = .held ∧
      out.shared.sp (.thread id) = .threadEntry) ∨
    ∃ caller q, out.event = some (.unlink caller q (.thread id)) ∧
      spot = .held ∧ out.shared.sp (.thread id) = s.sp (.thread id)

theorem KeepsShares.moves {event : Option (Event Core Sem)}
    {s' : Shared Core Sem} (h : KeepsShares sem l l')
    (hsp : ∀ id, s'.sp (.thread id) = s.sp (.thread id))
    (hdelta : ∀ id, event.elim 0 (Event.delta sem (.thread id)) = 0) :
    MovesShares sem s l ⟨event, l', s'⟩ := by
  intro id spot hhas
  obtain ⟨before, hbefore, hshare⟩ := h id spot hhas
  refine .inl ⟨before, hbefore, ?_⟩
  simp only [hshare, hsp, hdelta, Int.add_zero]

theorem moves_of_ctl {pc : PerCore Core Sem} {ctl ctl' : Ctl Core Sem}
    {event : Option (Event Core Sem)} {s' : Shared Core Sem}
    (hmode : ctl'.mode = ctl.mode) (hdone : ctl'.done = ctl.done)
    (hhand : ctl'.hand = ctl.hand) (hshare : ctl'.share sem = ctl.share sem)
    (hsp : ∀ id, s'.sp (.thread id) = s.sp (.thread id))
    (hdelta : ∀ id, event.elim 0 (Event.delta sem (.thread id)) = 0) :
    MovesShares sem s ⟨pc, ctl⟩ ⟨event, ⟨pc, ctl'⟩, s'⟩ :=
  KeepsShares.moves (fun _ spot hhas => ⟨spot, has_of_ctl hdone hhand hhas,
    fun sp => share_of_ctl hmode hshare sp spot⟩) hsp hdelta

section

omit [DecidableEq Core] [DecidableEq Sem]

/-- A core whose thread runs has that thread only. -/
theorem has_clear {prev : Option (Tcb Core)} {id id' : Nat} {spot : Spot}
    {ctl : Ctl Core Sem} (hhand : ctl.hand = none)
    (h : (⟨clear prev (some (.thread id')), ctl⟩ : CoreState Core Sem).Has id
      spot) : id' = id ∧ spot = .running := by
  obtain ⟨hslot, -⟩ := h
  cases spot with
  | running =>
      cases hslot
      exact ⟨rfl, rfl⟩
  | held =>
      change ctl.hand = _ at hslot
      rw [hhand] at hslot
      cases hslot
  | _ => cases hslot

end

/-- Moves of a running thread within `up` and `down`. -/
theorem movesShares_clear {prev : Option (Tcb Core)} {id : Nat}
    {ctl ctl' : Ctl Core Sem} {event : Option (Event Core Sem)}
    {s' : Shared Core Sem} (hhand : ctl'.hand = none)
    (hmode : ctl.mode = .normal) (hmode' : ctl'.mode = .normal)
    (hshare : (ctl'.share sem : Int) = ctl.share sem +
      event.elim 0 (Event.delta sem (.thread id))) :
    MovesShares sem s ⟨clear prev (some (.thread id)), ctl⟩
      ⟨event, ⟨clear prev (some (.thread id)), ctl'⟩, s'⟩ := by
  intro id' spot hhas
  obtain ⟨rfl, rfl⟩ := has_clear hhand hhas
  refine .inl ⟨.running, has_running rfl, ?_⟩
  simpa only [CoreState.share, hmode, hmode'] using hshare

theorem unlink_movesShares {idleSp : Resume Sem} {pc : PerCore Core Sem}
    {site : PopSite Sem} {caller value : Tcb Core} {node : Nat}
    {s' : Shared Core Sem} (hok : PopOk c idleSp pc site)
    (hcurr : pc.curr = some caller) (hne : caller ≠ value)
    (hsp : ∀ t, s'.sp t = s.sp t) :
    MovesShares sem s ⟨pc, .popHold site⟩
      ⟨some (.unlink caller site.queue value),
        ⟨pc, .heapWait (.deleteNode node value site)⟩, s'⟩ := by
  rintro id spot ⟨hslot, hpending⟩
  by_cases hspot : spot = .held
  · subst hspot
    cases hslot
    exact .inr (.inr ⟨caller, site.queue, rfl, rfl, hsp _⟩)
  · left
    cases site with
    | next =>
        obtain ⟨prev, rfl⟩ := hok
        cases spot <;> cases hslot
        exact absurd rfl hspot
    | up sem' =>
        obtain ⟨-, prev, id', rfl⟩ := hok
        cases hcurr
        cases spot <;> cases hslot
        · refine ⟨.running, has_running rfl, ?_⟩
          by_cases heq : sem' = sem
          · simp [CoreState.share, Ctl.mode, Ctl.share, PopSite.share, heq,
              Event.delta, Event.ownerDelta, PopSite.queue, hne.symm]
          · simp [CoreState.share, Ctl.mode, Ctl.share, PopSite.share, heq,
              Event.delta, Event.ownerDelta, PopSite.queue]
        · exact absurd rfl hspot

theorem Move.shares {idleSp : Resume Sem} (h : Move c s l out)
    (hok : CtlOk c idleSp l.pc l.ctl)
    (hfound : l.ctl = .popHold (.up sem) → s.unlink (.waiting sem) ≠ none)
    (hne : ∀ caller q t, out.event = some (.unlink caller q t) → caller ≠ t) :
    MovesShares sem s l out := by
  cases h with
  | silent hsilent =>
      exact hsilent.keeps.shares.moves (fun _ => rfl) fun _ => rfl
  | spin hspins _ =>
      exact (hspins.keeps (c := c)).shares.moves (fun _ => rfl) fun _ => rfl
  | @fail pc op hallocates =>
      cases op <;> first
        | exact moves_of_ctl rfl rfl rfl rfl (fun _ => rfl) fun _ => rfl
        | cases hallocates
  | @newTcb pc new _ =>
      intro id spot hhas
      by_cases hspot : spot = .held
      · subst hspot
        cases hhas.1
        exact .inr (.inl ⟨rfl, rfl, by simp [Shared.setSp]⟩)
      · obtain ⟨hold, -⟩ := has_of_ne_held (c := c) (.heapHold (.newTcb new))
          (schedule (.thread new) .go) rfl rfl hspot hhas
        refine .inl ⟨spot, hold, ?_⟩
        cases spot with
        | held => exact absurd rfl hspot
        | _ => rfl
  | dispatch =>
      rintro id (_ | _ | _ | _ | _) ⟨hslot, -⟩ <;> cases hslot
      exact .inl ⟨.held, has_held rfl, (Int.add_zero _).symm⟩
  | deleteStack =>
      rintro id (_ | _ | _ | _ | _) ⟨hslot, -⟩ <;> cases hslot
      exact .inl ⟨.toDelete, ⟨rfl, by simp [Ctl.done, Done.carriedOut]⟩, rfl⟩
  | deleteTcb =>
      rintro id (_ | _ | _ | _ | _) ⟨hslot, hpending⟩ <;> cases hslot
      exact absurd (by simp [Ctl.done, Done.carriedOut]) hpending
  | link =>
      exact (pushReturn_keeps (c := c) _ _ _ _).shares.moves (fun _ => rfl)
        fun _ => rfl
  | @popEmpty pc site hempty =>
      cases site with
      | next =>
          exact moves_of_ctl rfl rfl rfl rfl (fun _ => rfl) fun _ => rfl
      | up sem' =>
          have hsem : sem' ≠ sem := by
            rintro rfl
            exact hfound rfl hempty
          exact moves_of_ctl rfl rfl rfl (if_neg hsem).symm (fun _ => rfl)
            fun _ => rfl
  | @unlink pc site caller node rest hcurr hunlink =>
      obtain ⟨left, -, rfl⟩ := unlink_eq hunlink
      exact unlink_movesShares hok hcurr (hne _ _ _ rfl) fun _ => rfl
  | block _ =>
      rintro id (_ | _ | _ | _ | _) ⟨hslot, -⟩ <;> cases hslot
      exact .inl ⟨.running, has_running rfl, rfl⟩
  | @pass prev id sem' _ =>
      refine movesShares_clear rfl rfl rfl ?_
      by_cases heq : sem' = sem <;>
        simp [Ctl.share, Event.delta, Event.ownerDelta, heq]
  | @downUnlock prev id sem' =>
      refine movesShares_clear rfl rfl rfl ?_
      by_cases heq : sem' = sem <;>
        simp [Ctl.share, Event.delta, Event.ownerDelta, heq]
  | @downReturn prev id sem' =>
      refine movesShares_clear rfl rfl rfl ?_
      by_cases heq : sem' = sem <;>
        simp [Ctl.share, Event.delta, Event.ownerDelta, heq]
  | @callUp prev id sem' =>
      refine movesShares_clear rfl rfl rfl ?_
      by_cases heq : sem' = sem <;>
        simp [Ctl.share, Event.delta, Event.ownerDelta, heq]
  | @upWakes prev id sem' _ =>
      refine movesShares_clear rfl rfl rfl ?_
      by_cases heq : sem' = sem <;>
        simp [Ctl.share, PopSite.share, Event.delta, Event.ownerDelta, heq]
  | @upFrees prev id sem' _ =>
      refine movesShares_clear rfl rfl rfl ?_
      by_cases heq : sem' = sem <;>
        simp [Ctl.share, Event.delta, Event.ownerDelta, heq]
  | stop =>
      rintro id (_ | _ | _ | _ | _) ⟨hslot, -⟩ <;> cases hslot
      exact .inl ⟨.running, has_running rfl, rfl⟩
  | saveThread hleaves =>
      rintro id (_ | _ | _ | _ | _) ⟨hslot, hpending⟩ <;>
        cases hleaves <;> cases hslot
      · exact .inl ⟨.toDelete, ⟨rfl, hpending⟩, rfl⟩
      · exact .inl ⟨.toReschedule, ⟨rfl, hpending⟩, rfl⟩
      · exact .inl ⟨.toQueue, ⟨rfl, hpending⟩, rfl⟩
  | saveIdle =>
      rintro id (_ | _ | _ | _ | _) ⟨hslot, -⟩ <;> cases hslot
      exact .inl ⟨.running, has_running rfl, by
        simp [CoreState.share, Ctl.mode, Shared.setSp, Event.delta,
          Event.ownerDelta]⟩
  | loadEntry _ => rintro id (_ | _ | _ | _ | _) ⟨hslot, -⟩ <;> cases hslot
  | @loadIdle pc hcurr _ =>
      rintro id spot ⟨hslot, hpending⟩
      refine .inl ⟨spot, ⟨?_, hpending⟩, ?_⟩
      · cases spot <;> exact hslot
      · cases spot with
        | running =>
            change pc.curr = _ at hslot
            rw [hcurr] at hslot
            cases hslot
        | held => cases hslot
        | _ => rfl
  | @loadThread id hsaved =>
      intro id' spot hhas
      obtain ⟨rfl, rfl⟩ := has_clear rfl hhas
      refine .inl ⟨.running, has_running rfl, ?_⟩
      rcases hsaved with hsaved | hsaved <;>
        simp [CoreState.share, Ctl.mode, Ctl.share, hsaved, Resume.share,
          Event.delta, Event.ownerDelta]
  | @loadDown id sem' hsaved =>
      intro id' spot hhas
      obtain ⟨rfl, rfl⟩ := has_clear rfl hhas
      refine .inl ⟨.running, has_running rfl, ?_⟩
      simp [CoreState.share, Ctl.mode, Ctl.share, hsaved, Resume.share,
        Event.delta, Event.ownerDelta]
  | unlock =>
      rintro id (_ | _ | _ | _ | _) ⟨hslot, hpending⟩ <;> cases hslot
      exact absurd (by simp [Ctl.done, Done.carriedOut]) hpending
  | _ => exact moves_of_ctl rfl rfl rfl rfl (fun _ => rfl) fun _ => rfl

end Shares

end Threads

end IntroOs
