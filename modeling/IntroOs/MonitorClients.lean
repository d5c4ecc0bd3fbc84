/-
Programs on top of an object under a lock: each core runs a program, whose
requests are calls of the object.  What a program comes to next to all the
others is what it comes to alone, on any machine that can give the answers
which the calls can have.
-/
import IntroOs.Interact
import IntroOs.Monitor

namespace Interact

namespace Prog

variable {Req Ans Req' Ans' α σ : Type}

/-- A program with each of its requests made by a program of its own. -/
def lower (impl : Req → Prog Req' Ans' Ans) :
    Prog Req Ans α → Prog Req' Ans' α
  | ret a => ret a
  | act req next => (impl req).bind fun ans => (next ans).lower impl

/-- The requests of the program are handled as their programs run. -/
theorem run_lower (impl : Req → Prog Req' Ans' Ans)
    (handle : Req' → σ → Ans' × σ) (p : Prog Req Ans α) (s : σ) :
    (p.lower impl).run handle s =
      p.run (fun req s => (impl req).run handle s) s := by
  induction p generalizing s with
  | ret a => rfl
  | act req next ih =>
      change (impl req >>= fun ans => (next ans).lower impl).run handle s = _
      rw [run_bind, ih]
      rfl

/-- What a program comes to when its requests get answers of `post`. -/
inductive Reaches (post : Req → Ans → Prop) (p : Prog Req Ans α) :
    Prog Req Ans α → Prop
  | refl : Reaches post p p
  | answer {req : Req} {next : Ans → Prog Req Ans α} {ans : Ans}
      (before : Reaches post p (act req next)) (holds : post req ans) :
      Reaches post p (next ans)

/-- A machine that can give these answers can take the program there. -/
theorem Reaches.run {post : Req → Ans → Prop} {p p' : Prog Req Ans α}
    {handle : Req → σ → Ans × σ} (h : Reaches post p p')
    (hgives : ∀ req ans, post req ans → ∀ s', ∃ s, handle req s = (ans, s'))
    (s' : σ) : ∃ s, p.run handle s = p'.run handle s' := by
  induction h generalizing s' with
  | refl => exact ⟨s', rfl⟩
  | @answer req next ans before holds ih =>
      obtain ⟨s₁, hanswer⟩ := hgives req ans holds s'
      obtain ⟨s, hrun⟩ := ih s₁
      refine ⟨s, hrun.trans ?_⟩
      rw [Prog.run, hanswer]

end Prog

end Interact

namespace Monitor

open Interact (Prog)

/-- How programs use an object: the call that a core makes for a request, and
the answer it finds when the call returns. -/
structure Interface (Core Req Ans Call Result Shared : Type) where
  call : Core → Req → Call
  answer : Core → Req → Result → Shared → Ans

/-- An object and what is left of the programs of the cores. -/
structure Clients (Core Req Ans α Call Place Shared : Type) where
  object : State Core Call Place Shared
  progs : Core → Prog Req Ans α

/-- A core makes the next request of its program, or something else happens to
the object. -/
inductive ClientAction (Core Move : Type) where
  | request (c : Core)
  | acquire (c : Core)
  | step (c : Core)
  | move (move : Move)

namespace Clients

variable {Core Req Ans α Call Result Place Shared Move : Type}
  [DecidableEq Core]

/-- The programs behind a call that has returned. -/
def resume (I : Interface Core Req Ans Call Result Shared) (s : Shared)
    (progs : Core → Prog Req Ans α) (done : Done Core Call Result) :
    Core → Prog Req Ans α :=
  match progs done.core with
  | .ret _ => progs
  | .act req next =>
      Function.update progs done.core
        (next (I.answer done.core req done.result s))

def advance (O : Object Core Call Result Place Shared Move)
    (I : Interface Core Req Ans Call Result Shared)
    (st : Clients Core Req Ans α Call Place Shared)
    (action : Action Core Call Move) :
    Option (Clients Core Req Ans α Call Place Shared) :=
  (Monitor.step O st.object action).map fun (_, log, object) =>
    ⟨object, log.foldl (resume I object.shared) st.progs⟩

def step (O : Object Core Call Result Place Shared Move)
    (I : Interface Core Req Ans Call Result Shared)
    (st : Clients Core Req Ans α Call Place Shared) :
    ClientAction Core Move → Option (Clients Core Req Ans α Call Place Shared)
  | .request c =>
      match st.progs c with
      | .ret _ => none
      | .act req _ => st.advance O I (.call c (I.call c req))
  | .acquire c => st.advance O I (.acquire c)
  | .step c => st.advance O I (.step c)
  | .move move => st.advance O I (.move move)

/-- The runs from a guarded state with the lock free, of given programs. -/
inductive Run (O : Object Core Call Result Place Shared Move)
    (I : Interface Core Req Ans Call Result Shared) (s : Shared)
    (progs : Core → Prog Req Ans α) :
    Clients Core Req Ans α Call Place Shared → Prop
  | init : Run O I s progs ⟨⟨s, false, fun _ => .outside⟩, progs⟩
  | step {st st' : Clients Core Req Ans α Call Place Shared}
      {action : ClientAction Core Move} (before : Run O I s progs st)
      (step : step O I st action = some st') : Run O I s progs st'

/-- The actions of a schedule, one after the other. -/
def follow (O : Object Core Call Result Place Shared Move)
    (I : Interface Core Req Ans Call Result Shared)
    (st : Clients Core Req Ans α Call Place Shared)
    (actions : List (ClientAction Core Move)) :
    Option (Clients Core Req Ans α Call Place Shared) :=
  actions.foldlM (step O I) st

variable {O : Object Core Call Result Place Shared Move}
  {I : Interface Core Req Ans Call Result Shared} {s : Shared}
  {progs : Core → Prog Req Ans α}
  {st st' : Clients Core Req Ans α Call Place Shared}

theorem Run.follow {actions : List (ClientAction Core Move)}
    (h : Run O I s progs st)
    (hfollow : Clients.follow O I st actions = some st') :
    Run O I s progs st' := by
  induction actions generalizing st with
  | nil =>
      cases hfollow
      exact h
  | cons action actions ih =>
      obtain ⟨st₁, hstep, hrest⟩ := Option.bind_eq_some_iff.mp hfollow
      exact ih (h.step hstep) hrest

/-- A core in a call is there for the next request of its program. -/
def Asks (I : Interface Core Req Ans Call Result Shared)
    (st : Clients Core Req Ans α Call Place Shared) : Prop :=
  ∀ c, ∀ call ∈ (st.object.callers c).pending, ∃ req next,
    st.progs c = .act req next ∧ call = I.call c req

/-- What one action does: the programs do not notice, or a call returns to the
program that made it. -/
inductive Goes (O : Object Core Call Result Place Shared Move)
    (I : Interface Core Req Ans Call Result Shared)
    (st st' : Clients Core Req Ans α Call Place Shared) : Prop
  | quiet {action : Action Core Call Move} {calls : List (Core × Call)}
      (object : Monitor.step O st.object action =
        some (calls, [], st'.object))
      (progs : st'.progs = st.progs)
  | answer {action : Action Core Call Move} {calls : List (Core × Call)}
      {c : Core} {req : Req} {next : Ans → Prog Req Ans α} {r : Result}
      (object : Monitor.step O st.object action =
        some (calls, [⟨c, I.call c req, r⟩], st'.object))
      (asked : st.progs c = .act req next)
      (progs : st'.progs = Function.update st.progs c
        (next (I.answer c req r st'.object.shared)))

/-- A step of one core leaves the others where they are. -/
theorem Asks.of_core {c : Core} (h : Asks I st)
    (hcallers : ∀ c', c' ≠ c → st'.object.callers c' = st.object.callers c')
    (hprogs : ∀ c', c' ≠ c → st'.progs c' = st.progs c')
    (hself : ∀ call ∈ (st'.object.callers c).pending, ∃ req next,
      st'.progs c = .act req next ∧ call = I.call c req) : Asks I st' := by
  intro c' call hcall
  by_cases hc : c' = c
  · subst hc
    exact hself call hcall
  · rw [hcallers c' hc] at hcall
    rw [hprogs c' hc]
    exact h c' call hcall

/-- The answer of the program whose call has returned. -/
theorem resume_eq {c : Core} {call : Call} {r : Result} {req : Req}
    {next : Ans → Prog Req Ans α} (h : progs c = .act req next) :
    resume I s progs ⟨c, call, r⟩ =
      Function.update progs c (next (I.answer c req r s)) := by
  simp only [resume, h]

/-- The other programs do not notice. -/
theorem resume_of_ne {c c' : Core} {call : Call} {r : Result} {req : Req}
    {next : Ans → Prog Req Ans α} (h : progs c = .act req next)
    (hc : c' ≠ c) : resume I s progs ⟨c, call, r⟩ c' = progs c' := by
  rw [resume_eq h, Function.update_of_ne hc]

theorem advance_goes (h : Asks I st) {action : Action Core Call Move}
    (hcall : ∀ c call, action = .call c call → ∃ req next,
      st.progs c = .act req next ∧ call = I.call c req)
    (hstep : st.advance O I action = some st') :
    Goes O I st st' ∧ Asks I st' := by
  obtain ⟨⟨calls, log, object⟩, hobject, rfl⟩ :=
    Option.map_eq_some_iff.mp hstep
  cases Does.of_step hobject with
  | @early c call r s outside start =>
      obtain ⟨req, next, hprog, rfl⟩ := hcall c call rfl
      refine ⟨.answer hobject hprog (resume_eq hprog), ?_⟩
      refine h.of_core (c := c) (fun _ _ => rfl)
        (fun c' hc => resume_of_ne hprog hc) ?_
      simp [outside, Caller.pending]
  | @begins c call s outside start =>
      refine ⟨.quiet hobject rfl, ?_⟩
      refine h.of_core (c := c) (fun c' hc => State.set_of_ne _ hc _)
        (fun _ _ => rfl) ?_
      intro call' hcall'
      rw [State.set_self, Caller.pending, List.mem_singleton] at hcall'
      obtain ⟨req, next, hprog, heq⟩ := hcall c call rfl
      exact ⟨req, next, hprog, hcall'.trans heq⟩
  | @enters c call spins isFree =>
      refine ⟨.quiet hobject rfl, ?_⟩
      refine h.of_core (c := c) (fun c' hc => State.set_of_ne _ hc _)
        (fun _ _ => rfl) ?_
      intro call' hcall'
      rw [State.set_self] at hcall'
      exact h c call' (by rwa [spins])
  | @goesOn c call place place' s inside step =>
      refine ⟨.quiet hobject rfl, ?_⟩
      refine h.of_core (c := c) (fun c' hc => State.set_of_ne _ hc _)
        (fun _ _ => rfl) ?_
      intro call' hcall'
      rw [State.set_self] at hcall'
      exact h c call' (by rwa [inside])
  | @returns c call place r s inside step =>
      obtain ⟨req, next, hprog, rfl⟩ := h c call (by
        rw [inside]
        exact List.mem_singleton.mpr rfl)
      refine ⟨.answer hobject hprog (resume_eq hprog), ?_⟩
      refine h.of_core (c := c) (fun c' hc => State.set_of_ne _ hc _)
        (fun c' hc => resume_of_ne hprog hc) ?_
      rw [State.set_self]
      simp [Caller.pending]
  | moves moved => exact ⟨.quiet hobject rfl, h⟩

theorem step_goes (h : Asks I st) {action : ClientAction Core Move}
    (hstep : step O I st action = some st') :
    Goes O I st st' ∧ Asks I st' := by
  cases action with
  | request c =>
      rw [step] at hstep
      split at hstep
      next => cases hstep
      next req next hprog =>
        refine advance_goes h ?_ hstep
        rintro c' call ⟨⟩
        exact ⟨req, next, hprog, rfl⟩
  | acquire c =>
      refine advance_goes h ?_ hstep
      rintro c' call ⟨⟩
  | step c =>
      refine advance_goes h ?_ hstep
      rintro c' call ⟨⟩
  | move move =>
      refine advance_goes h ?_ hstep
      rintro c' call ⟨⟩

theorem Run.asks (h : Run O I s progs st) : Asks I st := by
  induction h with
  | init =>
      intro c call hcall
      simp [Caller.pending] at hcall
  | step before step ih => exact (step_goes ih step).2

/-- The object goes through a run of its own. -/
theorem Run.object (h : Run O I s progs st) :
    ∃ calls log, Monitor.Run O s calls log st.object := by
  induction h with
  | init => exact ⟨[], [], .init⟩
  | step before step ih =>
      obtain ⟨calls, log, hrun⟩ := ih
      cases (step_goes before.asks step).1 with
      | quiet object progs => exact ⟨_, _, hrun.step object⟩
      | answer object asked progs => exact ⟨_, _, hrun.step object⟩

/-- When every call that returns leaves an answer of `post`, as long as the
guarded state is good, then each program is at a place that it reaches with
such answers. -/
theorem Run.reaches (post : Req → Ans → Prop) (good : Shared → Prop)
    (hgood : ∀ {object object' : State Core Call Place Shared} {action calls log},
      Monitor.step O object action = some (calls, log, object') →
      good object'.shared → good object.shared)
    (hpost : ∀ {calls log object object' action calls' c req r},
      Monitor.Run O s calls log object →
      Monitor.step O object action =
        some (calls', [⟨c, I.call c req, r⟩], object') →
      good object.shared → post req (I.answer c req r object'.shared))
    (h : Run O I s progs st) (hst : good st.object.shared) (c : Core) :
    (progs c).Reaches post (st.progs c) := by
  induction h with
  | init => exact .refl
  | @step st st' action before step ih =>
      obtain ⟨calls, log, hrun⟩ := before.object
      cases (step_goes before.asks step).1 with
      | quiet object hprogs =>
          rw [hprogs]
          exact ih (hgood object hst)
      | @answer action calls' c' req next r object asked hprogs =>
          have hbefore := hgood object hst
          rw [hprogs]
          by_cases hc : c = c'
          · subst hc
            have hreaches := ih hbefore
            rw [asked] at hreaches
            rw [Function.update_self]
            exact hreaches.answer (hpost hrun object hbefore)
          · rw [Function.update_of_ne hc]
            exact ih hbefore

end Clients

end Monitor
