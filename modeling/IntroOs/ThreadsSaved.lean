/-
The saved contexts of threads that have left: a thread that waits for its core
to hand it on, or in the queue of a semaphore, resumes behind the call it left
from.
-/
import IntroOs.ThreadsLife

namespace IntroOs

namespace Threads

variable {Core Sem : Type} [DecidableEq Core] [DecidableEq Sem]

/-- The thread that left core `c` has saved where it resumes. -/
def SavedOn (c : Core) (sp : Tcb Core → Resume Sem) (l : CoreState Core Sem) :
    Prop :=
  ∀ id spot resume, l.pc = asks c (.thread id) resume → Leaves resume →
    l.ctl.mode ≠ .saving → l.Has id spot → sp (.thread id) = resume

structure Saved (m : Machine Core Sem) (items : QueueId Sem → List Nat) :
    Prop where
  core : ∀ c, SavedOn c m.shared.sp (m.cores c)
  queued : ∀ sem, ∀ node ∈ items (.waiting sem), ∀ id,
    (m.shared.cells node).value = .thread id →
    m.shared.sp (.thread id) = .downRet sem

section Local

variable {c : Core} {s : Shared Core Sem} {l l' : CoreState Core Sem}
  {out : Outcome Core Sem}

/-- The core still has the thread that left it, and it has been saved. -/
def Parted (c : Core) (l : CoreState Core Sem) (id : Nat)
    (resume : Resume Sem) : Prop :=
  l.pc = asks c (.thread id) resume ∧ l.ctl.mode ≠ .saving ∧
    ∃ spot, l.Has id spot

section

omit [DecidableEq Core] [DecidableEq Sem]

theorem parted_of_ctl {pc : PerCore Core Sem} {ctl ctl' : Ctl Core Sem}
    {id : Nat} {resume : Resume Sem} (hmode : ctl'.mode = ctl.mode)
    (hdone : ctl'.done = ctl.done) (hhand : ctl'.hand = ctl.hand)
    (h : Parted c ⟨pc, ctl'⟩ id resume) : Parted c ⟨pc, ctl⟩ id resume := by
  obtain ⟨hpc, hsaving, spot, hhas⟩ := h
  exact ⟨hpc, hmode ▸ hsaving, spot, has_of_ctl hdone hhand hhas⟩

theorem clear_ne_asks {prev curr : Option (Tcb Core)} {t : Tcb Core}
    {resume : Resume Sem} (hleaves : Leaves resume) :
    clear prev curr ≠ asks c t resume := by
  intro heq
  cases hleaves <;> cases heq

theorem Silent.parted (h : Silent c l l') {id : Nat} {resume : Resume Sem}
    (hleaves : Leaves resume) (hparted : Parted c l' id resume) :
    Parted c l id resume := by
  cases h with
  | go => exact parted_of_ctl rfl rfl rfl hparted
  | down => exact parted_of_ctl rfl rfl rfl hparted
  | yield => exact absurd rfl hparted.2.1
  | toDelete => exact parted_of_ctl rfl rfl rfl hparted
  | noDelete _ => exact parted_of_ctl rfl rfl rfl hparted
  | toQueue => exact parted_of_ctl rfl rfl rfl hparted
  | noQueue _ => exact parted_of_ctl rfl rfl rfl hparted
  | toReschedule => exact parted_of_ctl rfl rfl rfl hparted
  | noReschedule _ => exact parted_of_ctl rfl rfl rfl hparted
  | _ => exact absurd hparted.1 (clear_ne_asks hleaves)

theorem PopOk.isClear {idleSp : Resume Sem} {pc : PerCore Core Sem}
    {site : PopSite Sem} (h : PopOk c idleSp pc site) :
    ∃ prev curr, pc = clear prev curr := by
  cases site with
  | next =>
      obtain ⟨prev, rfl⟩ := h
      exact ⟨prev, _, rfl⟩
  | up sem =>
      obtain ⟨-, prev, id, rfl⟩ := h
      exact ⟨prev, _, rfl⟩

end

theorem Move.saving_of_save (h : Move c s l out) {t : Tcb Core}
    (hsave : out.event = some (.save c t)) : l.ctl.mode = .saving := by
  cases h <;> cases hsave <;> rfl

/-- A core comes to have a thread that left by saving it. -/
theorem Move.parted {idleSp : Resume Sem} (h : Move c s l out)
    (hok : CtlOk c idleSp l.pc l.ctl) {id : Nat} {resume : Resume Sem}
    (hleaves : Leaves resume) (hparted : Parted c out.core id resume) :
    (out.event = some (.save c (.thread id)) ∧
      out.shared.sp (.thread id) = resume) ∨ Parted c l id resume := by
  have hasks : ∀ (id' : Nat) (resume' : Resume Sem),
      asks c (.thread id') resume' = asks c (.thread id) resume →
      id' = id ∧ resume' = resume := by
    intro id' resume' heq
    cases hleaves <;> cases resume' <;> cases heq <;> exact ⟨rfl, rfl⟩
  cases h with
  | silent hsilent => exact .inr (hsilent.parted hleaves hparted)
  | spin hspins _ =>
      right
      cases hspins with
      | heap op => cases op <;> exact parted_of_ctl rfl rfl rfl hparted
      | _ => exact parted_of_ctl rfl rfl rfl hparted
  | @fail pc op hallocates =>
      right
      cases op <;>
        first | exact parted_of_ctl rfl rfl rfl hparted | cases hallocates
  | newStack _ => exact .inr (parted_of_ctl rfl rfl rfl hparted)
  | newNode _ => exact .inr (parted_of_ctl rfl rfl rfl hparted)
  | granted => exact .inr (parted_of_ctl rfl rfl rfl hparted)
  | newTcb _ =>
      obtain ⟨prev, curr, rfl⟩ := Fore.isClear hok
      exact absurd hparted.1 (clear_ne_asks hleaves)
  | deleteStack =>
      obtain ⟨rfl, rfl⟩ := hasks _ .stopRet hparted.1
      exact .inr ⟨rfl, by simp [Ctl.mode], .toDelete, rfl,
        by simp [Ctl.done, Done.carriedOut]⟩
  | deleteTcb =>
      obtain ⟨-, -, spot, hslot, hpending⟩ := hparted
      cases spot <;> cases hslot
      exact absurd (by simp [Ctl.done, Done.carriedOut]) hpending
  | @link pc q node value site =>
      obtain ⟨hpc, -, spot, hslot, hpending⟩ := hparted
      cases site with
      | go =>
          obtain ⟨prev, curr, rfl⟩ := Fore.isClear hok.2.2
          exact absurd hpc (clear_ne_asks hleaves)
      | up sem =>
          obtain ⟨-, prev, id', rfl⟩ := hok.2.2
          exact absurd hpc (clear_ne_asks hleaves)
      | deferred =>
          obtain ⟨id', sem, -, rfl, rfl⟩ := hok
          cases spot <;> cases hslot
          exact absurd (by simp [pushReturn, Ctl.done, Done.carriedOut]) hpending
      | reschedule =>
          obtain ⟨id', -, rfl, rfl⟩ := hok
          cases spot <;> cases hslot
          exact absurd (by simp [pushReturn, Ctl.done, Done.carriedOut]) hpending
  | popEmpty _ =>
      obtain ⟨prev, curr, rfl⟩ := PopOk.isClear hok
      exact absurd hparted.1 (clear_ne_asks hleaves)
  | unlink _ _ =>
      obtain ⟨prev, curr, rfl⟩ := PopOk.isClear hok
      exact absurd hparted.1 (clear_ne_asks hleaves)
  | block _ => exact absurd rfl hparted.2.1
  | upUnlock => exact .inr (parted_of_ctl rfl rfl rfl hparted)
  | stop => exact absurd rfl hparted.2.1
  | saveThread _ =>
      obtain ⟨rfl, rfl⟩ := hasks _ _ hparted.1
      exact .inl ⟨rfl, by simp [Shared.setSp]⟩
  | loadIdle _ _ =>
      obtain ⟨hpc, -, spot, hslot, hpending⟩ := hparted
      refine .inr ⟨hpc, by simp [Ctl.mode], spot, ?_, hpending⟩
      cases spot <;> exact hslot
  | unlock =>
      obtain ⟨-, -, spot, hslot, hpending⟩ := hparted
      cases spot <;> cases hslot
      exact absurd (by simp [Ctl.done, Done.carriedOut]) hpending
  | _ => exact absurd hparted.1 (clear_ne_asks hleaves)

end Local

section Whole

variable {m : Machine Core Sem} {items : QueueId Sem → List Nat} {c : Core}
  {out : Outcome Core Sem}

/-- A move leaves the saved context of a thread alone unless it saves or
builds it. -/
theorem Move.sp_of_subject_ne {s : Shared Core Sem} {l : CoreState Core Sem}
    (h : Move c s l out) {id : Nat}
    (hsubject : out.event.bind Event.subject ≠ some (.thread id)) :
    out.shared.sp (.thread id) = s.sp (.thread id) := by
  apply h.sp_eq
  · intro hsave
    rw [hsave] at hsubject
    exact hsubject rfl
  · intro hcreate
    rw [hcreate] at hsubject
    exact hsubject rfl

/-- A thread that is somewhere is not about to be built. -/
theorem Inv.ne_create (h : Inv m items)
    (hmove : Move c m.shared (m.cores c) out) {id : Nat}
    (hone : m.shared.amount (.tcb id) = 1) :
    out.event ≠ some (.create (.thread id)) := by
  intro hcreate
  have hzero := h.building c id (by rw [hmove.builds_of_create hcreate]; rfl)
  omega

theorem Saved.core_step (hsaved : Saved m items) (h : Inv m items)
    (hmove : Move c m.shared (m.cores c) out) (c' : Core) :
    SavedOn c' out.shared.sp ((m.after c out).cores c') := by
  intro id spot resume hpc hleaves hmode hhas
  by_cases hcore : c' = c
  · subst hcore
    rw [after_core_self] at hpc hmode hhas
    rcases hmove.parted (h.ctl c') hleaves ⟨hpc, hmode, spot, hhas⟩ with
      ⟨-, hsp⟩ | ⟨hpc', hmode', spot', hhas'⟩
    · exact hsp
    · have hsp := hsaved.core c' id spot' resume hpc' hleaves hmode' hhas'
      by_cases hsave : out.event = some (.save c' (.thread id))
      · exact absurd (hmove.saving_of_save hsave) hmode'
      · rw [hmove.sp_eq hsave (h.ne_create hmove (h.amount_of_has hhas')), hsp]
  · rw [after_core_of_ne hcore] at hpc hmode hhas
    rw [hmove.sp_of_subject_ne,
      hsaved.core c' id spot resume hpc hleaves hmode hhas]
    refine h.subject_ne hmove (show m.At id (.core c' spot) from hhas) ?_
    intro spot' heq
    cases heq
    exact hcore rfl

theorem Saved.queued_step (hsaved : Saved m items) (h : Inv m items)
    (hmove : Move c m.shared (m.cores c) out) (sem : Sem) (node : Nat)
    (hnode : node ∈ itemsAfter (m.cores c).ctl items (.waiting sem)) (id : Nat)
    (hvalue : (out.shared.cells node).value = .thread id) :
    out.shared.sp (.thread id) = .downRet sem := by
  rcases h.mem_itemsAfter hmove hnode with ⟨hnode, hsame⟩ |
    ⟨value, site, hctl, hevent, hnew⟩
  · rw [hsame] at hvalue
    rw [hmove.sp_of_subject_ne, hsaved.queued sem node hnode id hvalue]
    exact h.subject_ne hmove
      (show m.At id (.queued (.waiting sem) node) from
        ⟨items (.waiting sem), h.linked _, hnode, hvalue⟩) nofun
  · rw [hmove.sp_of_subject_ne (by rw [hevent]; exact nofun)]
    have hok := h.ctl c
    rw [hctl] at hok
    rw [hnew] at hvalue
    subst hvalue
    cases site with
    | deferred =>
        obtain ⟨id', sem', heq, hthread, hpc⟩ := hok
        cases heq
        refine hsaved.core c id .toQueue _ hpc (.down sem) ?_ ?_
        · rw [hctl]
          exact nofun
        · refine ⟨?_, ?_⟩
          · change (m.cores c).pc.toQueue = _
            rw [hpc]
            rfl
          · rw [hctl]
            simp [Ctl.done, Done.carriedOut]
    | go => cases hok.1
    | up sem' => cases hok.1
    | reschedule =>
        obtain ⟨id', heq, -, -⟩ := hok
        cases heq

theorem Saved.move (hsaved : Saved m items) (h : Inv m items)
    (hmove : Move c m.shared (m.cores c) out) :
    Saved (m.after c out) (itemsAfter (m.cores c).ctl items) where
  core := hsaved.core_step h hmove
  queued := hsaved.queued_step h hmove

section

omit [DecidableEq Core] [DecidableEq Sem]

theorem saved_initial (cnt : Sem → Int) :
    Saved (initial cnt : Machine Core Sem) fun _ => [] where
  core := by
    intro c id spot resume hpc hleaves
    exact absurd hpc (clear_ne_asks hleaves)
  queued := fun _ _ hnode => absurd hnode List.not_mem_nil

end

end Whole

end Threads

end IntroOs
