/-
Critical sections of one spinlock.  A section goes on step by step on the
state that the lock guards, while other callers spin and the world may move
that state by itself.  The rule at the end turns what single steps keep into
what every run keeps, next to a log of the calls in the order they returned.
-/
import Mathlib.Data.List.Basic
import Mathlib.Logic.Function.Basic

namespace Monitor

/-- Operations under one lock.  `start` is the code of a call in front of the
lock, which may return at once; `enter` is where the section behind it begins,
and `step` is one step of it, which goes on or returns and unlocks; `move` is
what the world may do to the guarded state at any time. -/
structure Object (Core Call Result Place Shared Move : Type) where
  start : Core → Call → Shared → Option (Option Result × Shared)
  enter : Call → Shared → Place
  step : Core → Place → Shared → (Place ⊕ Result) × Shared
  move : Move → Shared → Option Shared

/-- A core: not in a call, in front of the lock, or behind it. -/
inductive Caller (Call Place : Type) where
  | outside
  | spins (call : Call)
  | inside (call : Call) (place : Place)

/-- Where a core is behind the lock. -/
def Caller.place {Call Place : Type} :
    Caller Call Place → Option (Call × Place)
  | .outside | .spins _ => none
  | .inside call place => some (call, place)

theorem Caller.eq_inside {Call Place : Type} {caller : Caller Call Place}
    {call : Call} {place : Place} (h : caller.place = some (call, place)) :
    caller = .inside call place := by
  cases caller with
  | outside => cases h
  | spins call => cases h
  | inside call' place' =>
      cases h
      rfl

structure State (Core Call Place Shared : Type) where
  shared : Shared
  locked : Bool
  callers : Core → Caller Call Place

structure Done (Core Call Result : Type) where
  core : Core
  call : Call
  result : Result
deriving DecidableEq

inductive Action (Core Call Move : Type) where
  | call (c : Core) (call : Call)
  | acquire (c : Core)
  | step (c : Core)
  | move (move : Move)

section Runs

variable {Core Call Result Place Shared Move : Type} [DecidableEq Core]

def State.set (st : State Core Call Place Shared) (c : Core)
    (caller : Caller Call Place) : State Core Call Place Shared :=
  { st with callers := Function.update st.callers c caller }

@[simp]
theorem State.set_self (st : State Core Call Place Shared) (c : Core)
    (caller : Caller Call Place) : (st.set c caller).callers c = caller :=
  Function.update_self ..

theorem State.set_of_ne (st : State Core Call Place Shared) {c c' : Core}
    (h : c' ≠ c) (caller : Caller Call Place) :
    (st.set c caller).callers c' = st.callers c' :=
  Function.update_of_ne h ..

/-- One step of one core or of the world, with the calls it makes and the
calls it ends. -/
def step (O : Object Core Call Result Place Shared Move)
    (st : State Core Call Place Shared) : Action Core Call Move →
    Option (List (Core × Call) × List (Done Core Call Result) ×
      State Core Call Place Shared)
  | .call c call =>
      match st.callers c with
      | .outside =>
          (O.start c call st.shared).map fun
            | (some r, s) => ([(c, call)], [⟨c, call, r⟩], { st with shared := s })
            | (none, s) =>
                ([(c, call)], [], { st with shared := s }.set c (.spins call))
      | _ => none
  | .acquire c =>
      match st.callers c with
      | .spins call =>
          if st.locked then none
          else some ([], [],
            { st with locked := true }.set c
              (.inside call (O.enter call st.shared)))
      | _ => none
  | .step c =>
      match st.callers c with
      | .inside call place =>
          match O.step c place st.shared with
          | (.inl place, s) =>
              some ([], [], { st with shared := s }.set c (.inside call place))
          | (.inr r, s) =>
              some ([], [⟨c, call, r⟩],
                { st with shared := s, locked := false }.set c .outside)
      | _ => none
  | .move move =>
      (O.move move st.shared).map fun s => ([], [], { st with shared := s })

/-- The runs from a guarded state with the lock free: the calls made, in
order, and those ended, in order. -/
inductive Run (O : Object Core Call Result Place Shared Move) (s : Shared) :
    List (Core × Call) → List (Done Core Call Result) →
    State Core Call Place Shared → Prop
  | init : Run O s [] [] ⟨s, false, fun _ => .outside⟩
  | step {calls calls' : List (Core × Call)}
      {log log' : List (Done Core Call Result)}
      {st st' : State Core Call Place Shared} {action : Action Core Call Move}
      (before : Run O s calls log st)
      (step : step O st action = some (calls', log', st')) :
      Run O s (calls ++ calls') (log ++ log') st'

/-- What one step can do, read off the definition. -/
inductive Does (O : Object Core Call Result Place Shared Move)
    (st : State Core Call Place Shared) : Action Core Call Move →
    List (Core × Call) → List (Done Core Call Result) →
    State Core Call Place Shared → Prop
  | early {c : Core} {call : Call} {r : Result} {s : Shared}
      (outside : st.callers c = .outside)
      (start : O.start c call st.shared = some (some r, s)) :
      Does O st (.call c call) [(c, call)] [⟨c, call, r⟩] { st with shared := s }
  | begins {c : Core} {call : Call} {s : Shared}
      (outside : st.callers c = .outside)
      (start : O.start c call st.shared = some (none, s)) :
      Does O st (.call c call) [(c, call)] []
        ({ st with shared := s }.set c (.spins call))
  | enters {c : Core} {call : Call} (spins : st.callers c = .spins call)
      (isFree : st.locked = false) :
      Does O st (.acquire c) [] []
        ({ st with locked := true }.set c
          (.inside call (O.enter call st.shared)))
  | goesOn {c : Core} {call : Call} {place place' : Place} {s : Shared}
      (inside : st.callers c = .inside call place)
      (step : O.step c place st.shared = (.inl place', s)) :
      Does O st (.step c) [] []
        ({ st with shared := s }.set c (.inside call place'))
  | returns {c : Core} {call : Call} {place : Place} {r : Result} {s : Shared}
      (inside : st.callers c = .inside call place)
      (step : O.step c place st.shared = (.inr r, s)) :
      Does O st (.step c) [] [⟨c, call, r⟩]
        ({ st with shared := s, locked := false }.set c .outside)
  | moves {move : Move} {s : Shared} (moved : O.move move st.shared = some s) :
      Does O st (.move move) [] [] { st with shared := s }

/-- The steps of a schedule, one after the other. -/
def follow (O : Object Core Call Result Place Shared Move) :
    State Core Call Place Shared → List (Action Core Call Move) →
    Option (List (Core × Call) × List (Done Core Call Result) ×
      State Core Call Place Shared)
  | st, [] => some ([], [], st)
  | st, action :: actions =>
      (step O st action).bind fun first =>
        (follow O first.2.2 actions).map fun rest =>
          (first.1 ++ rest.1, first.2.1 ++ rest.2.1, rest.2.2)

variable {O : Object Core Call Result Place Shared Move} {s : Shared}
  {st st' : State Core Call Place Shared} {calls calls' : List (Core × Call)}
  {log log' : List (Done Core Call Result)} {action : Action Core Call Move}

theorem Does.of_step (h : step O st action = some (calls', log', st')) :
    Does O st action calls' log' st' := by
  cases action with
  | call c call =>
      rw [step] at h
      split at h
      next hcaller =>
        obtain ⟨⟨result, s⟩, hstart, heq⟩ := Option.map_eq_some_iff.mp h
        cases result with
        | none =>
            cases heq
            exact .begins hcaller hstart
        | some r =>
            cases heq
            exact .early hcaller hstart
      next => cases h
  | acquire c =>
      rw [step] at h
      split at h
      next call hcaller =>
        split at h
        next => cases h
        next hfree =>
          cases h
          exact .enters hcaller (by simpa using hfree)
      next => cases h
  | step c =>
      rw [step] at h
      split at h
      next call place hcaller =>
        split at h
        next place' s hstep =>
          cases h
          exact .goesOn hcaller hstep
        next r s hstep =>
          cases h
          exact .returns hcaller hstep
      next => cases h
  | move move =>
      obtain ⟨s, hmove, heq⟩ := Option.map_eq_some_iff.mp h
      cases heq
      exact .moves hmove

/-- The core that an action is of, if it is not one of the world. -/
def Action.core : Action Core Call Move → Option Core
  | .call c _ | .acquire c | .step c => some c
  | .move _ => none

theorem Does.callers_of_ne (h : Does O st action calls' log' st') {c : Core}
    (hne : action.core ≠ some c) : st'.callers c = st.callers c := by
  cases h with
  | early => rfl
  | moves => rfl
  | begins | enters | goesOn | returns =>
      exact State.set_of_ne _ (fun heq => hne (congrArg some heq.symm)) _

/-- What a core is still in the middle of. -/
def Caller.pending : Caller Call Place → List Call
  | .outside => []
  | .spins call => [call]
  | .inside call _ => [call]

/-- The calls a core has made. -/
def madeBy (c : Core) (calls : List (Core × Call)) : List Call :=
  (calls.filter fun made => made.1 = c).map Prod.snd

/-- The calls of a core that have returned. -/
def endedBy (c : Core) (log : List (Done Core Call Result)) : List Call :=
  (log.filter fun done => done.core = c).map Done.call

theorem Does.made_eq (h : Does O st action calls' log' st') (c : Core) :
    (st.callers c).pending ++ madeBy c calls' =
      endedBy c log' ++ (st'.callers c).pending := by
  cases h with
  | @early c' call r s outside start =>
      by_cases heq : c' = c
      · subst heq
        simp [madeBy, endedBy, outside, Caller.pending]
      · simp [madeBy, endedBy, heq]
  | @begins c' call s outside start =>
      by_cases heq : c' = c
      · subst heq
        simp [madeBy, endedBy, outside, Caller.pending]
      · simp [madeBy, endedBy, heq, State.set_of_ne _ (Ne.symm heq)]
  | @enters c' call spins isFree =>
      by_cases heq : c' = c
      · subst heq
        simp [madeBy, endedBy, spins, Caller.pending]
      · simp [madeBy, endedBy, State.set_of_ne _ (Ne.symm heq)]
  | @goesOn c' call place place' s inside step =>
      by_cases heq : c' = c
      · subst heq
        simp [madeBy, endedBy, inside, Caller.pending]
      · simp [madeBy, endedBy, State.set_of_ne _ (Ne.symm heq)]
  | @returns c' call place r s inside step =>
      by_cases heq : c' = c
      · subst heq
        simp [madeBy, endedBy, inside, Caller.pending]
      · simp [madeBy, endedBy, heq, State.set_of_ne _ (Ne.symm heq)]
  | moves moved => simp [madeBy, endedBy]

/-- A core's calls return in the order it makes them, each once. -/
theorem Run.made_eq (h : Run O s calls log st) (c : Core) :
    madeBy c calls = endedBy c log ++ (st.callers c).pending := by
  induction h with
  | init => rfl
  | @step calls calls' log log' st st' action before step ih =>
      have hstep := (Does.of_step step).made_eq c
      simp only [madeBy, endedBy, List.filter_append, List.map_append] at *
      rw [ih, List.append_assoc, hstep, List.append_assoc]

/-- A schedule that can be followed makes a run. -/
theorem Run.follow {actions : List (Action Core Call Move)}
    (h : Run O s calls log st)
    (hfollow : follow O st actions = some (calls', log', st')) :
    Run O s (calls ++ calls') (log ++ log') st' := by
  induction actions generalizing calls log st calls' log' with
  | nil =>
      cases hfollow
      rwa [List.append_nil, List.append_nil]
  | cons action actions ih =>
      obtain ⟨⟨calls₁, log₁, st₁⟩, hstep, hrest⟩ :=
        Option.bind_eq_some_iff.mp hfollow
      obtain ⟨⟨calls₂, log₂, st₂⟩, hlast, heq⟩ :=
        Option.map_eq_some_iff.mp hrest
      cases heq
      rw [← List.append_assoc, ← List.append_assoc]
      exact ih (h.step hstep) hlast

theorem step_acquire {c : Core} {call : Call}
    (hspins : st.callers c = .spins call) :
    step O st (.acquire c) =
      if st.locked then none
      else some ([], [], { st with locked := true }.set c
        (.inside call (O.enter call st.shared))) := by
  rw [step, hspins]

theorem step_goesOn {c : Core} {call : Call} {place place' : Place}
    (hinside : st.callers c = .inside call place)
    (hstep : O.step c place st.shared = (.inl place', s)) :
    step O st (.step c) =
      some ([], [], { st with shared := s }.set c (.inside call place')) := by
  rw [step, hinside]
  simp only [hstep]

theorem step_returns {c : Core} {call : Call} {place : Place} {r : Result}
    (hinside : st.callers c = .inside call place)
    (hstep : O.step c place st.shared = (.inr r, s)) :
    step O st (.step c) = some ([], [⟨c, call, r⟩],
      { st with shared := s, locked := false }.set c .outside) := by
  rw [step, hinside]
  simp only [hstep]

theorem follow_append {first rest : List (Action Core Call Move)}
    {st₁ : State Core Call Place Shared}
    (hfirst : follow O st first = some (calls, log, st₁))
    (hrest : follow O st₁ rest = some (calls', log', st')) :
    follow O st (first ++ rest) =
      some (calls ++ calls', log ++ log', st') := by
  induction first generalizing st calls log with
  | nil =>
      cases hfirst
      exact hrest
  | cons action actions ih =>
      obtain ⟨⟨calls₁, log₁, st₂⟩, hstep, htail⟩ :=
        Option.bind_eq_some_iff.mp hfirst
      obtain ⟨⟨calls₂, log₂, st₃⟩, hlast, heq⟩ :=
        Option.map_eq_some_iff.mp htail
      cases heq
      rw [List.cons_append, follow, hstep, Option.bind_some, ih hlast,
        Option.map_some, List.append_assoc, List.append_assoc]

/-- Steps of the core `c` behind the lock and of the world lead from `st` to
`st'` and end the calls of `log`. -/
def Alone (O : Object Core Call Result Place Shared Move) (c : Core)
    (st : State Core Call Place Shared) (log : List (Done Core Call Result))
    (st' : State Core Call Place Shared) : Prop :=
  ∃ actions, (∀ action ∈ actions,
      action = .step c ∨ ∃ move, action = .move move) ∧
    follow O st actions = some ([], log, st')

namespace Alone

variable {c : Core}

theorem refl (st : State Core Call Place Shared) : Alone O c st [] st :=
  ⟨[], by simp, rfl⟩

theorem trans {st₁ : State Core Call Place Shared} (h : Alone O c st log st₁)
    (h' : Alone O c st₁ log' st') : Alone O c st (log ++ log') st' := by
  obtain ⟨first, hfirst, hfollow⟩ := h
  obtain ⟨rest, hrest, hfollow'⟩ := h'
  refine ⟨first ++ rest, fun action hmem => ?_, follow_append hfollow hfollow'⟩
  rcases List.mem_append.mp hmem with hmem | hmem
  · exact hfirst action hmem
  · exact hrest action hmem

theorem single (haction : action = .step c ∨ ∃ move, action = .move move)
    (hstep : Monitor.step O st action = some ([], log, st')) :
    Alone O c st log st' := by
  refine ⟨[action], by simpa using haction, ?_⟩
  rw [follow, hstep]
  simp [follow]

theorem goesOn {call : Call} {place place' : Place}
    (hinside : st.callers c = .inside call place)
    (hstep : O.step c place st.shared = (.inl place', s)) :
    Alone O c st [] ({ st with shared := s }.set c (.inside call place')) :=
  single (.inl rfl) (step_goesOn hinside hstep)

/-- The other callers stay where they are. -/
theorem callers_of_ne {c' : Core} (h : Alone O c st log st') (hne : c' ≠ c) :
    st'.callers c' = st.callers c' := by
  obtain ⟨actions, hactions, hfollow⟩ := h
  generalize ([] : List (Core × Call)) = calls at hfollow
  induction actions generalizing st calls log with
  | nil =>
      cases hfollow
      rfl
  | cons action actions ih =>
      obtain ⟨⟨calls₁, log₁, st₁⟩, hstep, htail⟩ :=
        Option.bind_eq_some_iff.mp hfollow
      obtain ⟨⟨calls₂, log₂, st₂⟩, hlast, heq⟩ :=
        Option.map_eq_some_iff.mp htail
      cases heq
      obtain ⟨haction, hrest⟩ := List.forall_mem_cons.mp hactions
      rw [ih hrest _ hlast]
      refine (Does.of_step hstep).callers_of_ne ?_
      obtain rfl | ⟨move, rfl⟩ := haction
      · exact fun heq => hne (Option.some.inj heq).symm
      · simp [Action.core]

end Alone

/-- What holds while the lock is free, of a caller in front of it, and of the
one behind it. -/
structure Assertions (Core Call Result Place Shared : Type) where
  isFree : List (Done Core Call Result) → Shared → Prop
  waits : Core → Call → Shared → Prop
  busy : List (Done Core Call Result) → Core → Call → Place → Shared → Prop

namespace Assertions

variable (A : Assertions Core Call Result Place Shared)

/-- A change that the callers in front of the lock do not notice, but for
`c`. -/
def WaitsKept (c : Option Core) (s s' : Shared) : Prop :=
  ∀ c' call, some c' ≠ c → A.waits c' call s → A.waits c' call s'

/-- A change from outside the section that nobody notices, but for `c`. -/
structure Kept (c : Option Core) (log : List (Done Core Call Result))
    (s : Shared) (log' : List (Done Core Call Result)) (s' : Shared) :
    Prop where
  isFree : A.isFree log s → A.isFree log' s'
  waits : A.WaitsKept c s s'
  busy : ∀ c' call place, some c' ≠ c → A.busy log c' call place s →
    A.busy log' c' call place s'

/-- Every step keeps the assertions. -/
structure Sound (O : Object Core Call Result Place Shared Move) : Prop where
  early : ∀ log {c call s r s'}, O.start c call s = some (some r, s') →
    A.Kept (some c) log s (log ++ [⟨c, call, r⟩]) s'
  begins : ∀ log {c call s s'}, O.start c call s = some (none, s') →
    A.Kept (some c) log s log s' ∧ A.waits c call s'
  enters : ∀ {log c call s}, A.isFree log s → A.waits c call s →
    A.busy log c call (O.enter call s) s
  goesOn : ∀ {log c call place s place' s'}, A.busy log c call place s →
    O.step c place s = (.inl place', s') →
    A.busy log c call place' s' ∧ A.WaitsKept (some c) s s'
  returns : ∀ {log c call place s r s'}, A.busy log c call place s →
    O.step c place s = (.inr r, s') →
    A.isFree (log ++ [⟨c, call, r⟩]) s' ∧ A.WaitsKept (some c) s s'
  moves : ∀ log {move s s'}, O.move move s = some s' →
    A.Kept none log s log s'

/-- The assertions at a state of a run: nobody is behind a free lock, and one
caller is behind a held one. -/
structure Hold (log : List (Done Core Call Result))
    (st : State Core Call Place Shared) : Prop where
  isFree : st.locked = false → A.isFree log st.shared ∧
    ∀ c call place, st.callers c ≠ .inside call place
  waits : ∀ c call, st.callers c = .spins call → A.waits c call st.shared
  busy : st.locked = true → ∃ c call place,
    st.callers c = .inside call place ∧ A.busy log c call place st.shared ∧
    ∀ c' call' place', st.callers c' = .inside call' place' → c' = c

variable {A}

section

omit [DecidableEq Core]

/-- The caller behind the lock holds it, and is the only one there. -/
theorem Hold.inside (h : A.Hold log st) {c : Core} {call : Call}
    {place : Place} (hinside : st.callers c = .inside call place) :
    st.locked = true ∧ A.busy log c call place st.shared ∧
      ∀ c' call' place', st.callers c' = .inside call' place' → c' = c := by
  cases hlocked : st.locked with
  | false => exact absurd hinside ((h.isFree hlocked).2 c call place)
  | true =>
      obtain ⟨c', call', place', hcaller, hbusy, honly⟩ := h.busy hlocked
      obtain rfl := honly c call place hinside
      rw [hinside] at hcaller
      cases hcaller
      exact ⟨rfl, hbusy, honly⟩

/-- A change from outside the section by a core that is outside itself. -/
theorem Hold.kept (h : A.Hold log st) {c : Option Core} {s : Shared}
    (houtside : ∀ c', c = some c' → st.callers c' = .outside)
    (hkept : A.Kept c log st.shared log' s) :
    A.Hold log' { st with shared := s } := by
  have hother : ∀ c', st.callers c' ≠ .outside → some c' ≠ c :=
    fun c' hne heq => hne (houtside c' heq.symm)
  refine ⟨fun hfree => ?_, fun c' call hspins => ?_, fun hlocked => ?_⟩
  · exact ⟨hkept.isFree (h.isFree hfree).1, (h.isFree hfree).2⟩
  · have hne : st.callers c' ≠ .outside := by
      intro heq
      rw [heq] at hspins
      cases hspins
    exact hkept.waits c' call (hother c' hne) (h.waits c' call hspins)
  · obtain ⟨c', call, place, hinside, hbusy, honly⟩ := h.busy hlocked
    have hne : st.callers c' ≠ .outside := by simp [hinside]
    exact ⟨c', call, place, hinside,
      hkept.busy c' call place (hother c' hne) hbusy, honly⟩

end

/-- A caller that comes to spin. -/
theorem Hold.spins (h : A.Hold log st) {c : Core} {call : Call}
    (houtside : st.callers c = .outside) (hwaits : A.waits c call st.shared) :
    A.Hold log (st.set c (.spins call)) := by
  have hinside : ∀ {c' call' place'},
      (st.set c (.spins call)).callers c' = .inside call' place' →
      st.callers c' = .inside call' place' := by
    intro c' call' place' hcaller
    by_cases heq : c' = c
    · subst heq
      simp at hcaller
    · rwa [State.set_of_ne _ heq] at hcaller
  refine ⟨fun hfree => ⟨(h.isFree hfree).1, fun c' call' place' hcaller =>
    (h.isFree hfree).2 c' call' place' (hinside hcaller)⟩,
    fun c' call' hspins => ?_, fun hlocked => ?_⟩
  · by_cases heq : c' = c
    · subst heq
      rw [State.set_self, Caller.spins.injEq] at hspins
      exact hspins ▸ hwaits
    · rw [State.set_of_ne _ heq] at hspins
      exact h.waits c' call' hspins
  · obtain ⟨c', call', place', hcaller, hbusy, honly⟩ := h.busy hlocked
    have hne : c' ≠ c := by
      rintro rfl
      simp [houtside] at hcaller
    exact ⟨c', call', place', by rwa [State.set_of_ne _ hne],
      hbusy, fun c'' call'' place'' hin => honly c'' call'' place'' (hinside hin)⟩

/-- The caller behind the lock moves on, or a caller gets there. -/
theorem Hold.behind {c : Core} {call : Call} {place : Place} {s : Shared}
    (h : A.Hold log st) (hkept : A.WaitsKept (some c) st.shared s)
    (hbusy : A.busy log c call place s)
    (honly : ∀ c' call' place', st.callers c' = .inside call' place' → c' = c) :
    A.Hold log (State.set { st with shared := s, locked := true } c
      (.inside call place)) := by
  refine ⟨fun hfree => absurd hfree.symm Bool.false_ne_true,
    fun c' call' hspins => ?_, fun _ => ⟨c, call, place, State.set_self .., hbusy, ?_⟩⟩
  · have hne : c' ≠ c := by
      rintro rfl
      simp at hspins
    rw [State.set_of_ne _ hne] at hspins
    exact hkept c' call' (by simpa using hne) (h.waits c' call' hspins)
  · intro c' call' place' hinside
    by_contra hne
    rw [State.set_of_ne _ hne] at hinside
    exact hne (honly c' call' place' hinside)

/-- The caller behind the lock leaves. -/
theorem Hold.leaves {c : Core} {s : Shared} (h : A.Hold log st)
    (hkept : A.WaitsKept (some c) st.shared s) (hfree : A.isFree log' s)
    (honly : ∀ c' call' place', st.callers c' = .inside call' place' → c' = c) :
    A.Hold log' (State.set { st with shared := s, locked := false } c
      .outside) := by
  refine ⟨fun _ => ⟨hfree, fun c' call' place' hinside => ?_⟩,
    fun c' call' hspins => ?_, fun hlocked => absurd hlocked Bool.false_ne_true⟩
  · by_cases heq : c' = c
    · subst heq
      simp at hinside
    · rw [State.set_of_ne _ heq] at hinside
      exact heq (honly c' call' place' hinside)
  · have hne : c' ≠ c := by
      rintro rfl
      simp at hspins
    rw [State.set_of_ne _ hne] at hspins
    exact hkept c' call' (by simpa using hne) (h.waits c' call' hspins)

theorem Sound.step (sound : A.Sound O) (h : A.Hold log st)
    (hdoes : Does O st action calls' log' st') : A.Hold (log ++ log') st' := by
  cases hdoes with
  | @early c call r s outside start =>
      exact h.kept (by simpa using outside) (sound.early log start)
  | @begins c call s outside start =>
      obtain ⟨hkept, hwaits⟩ := sound.begins log start
      rw [List.append_nil]
      exact (h.kept (by simpa using outside) hkept).spins outside hwaits
  | @enters c call spins isFree =>
      obtain ⟨hfree, hnobody⟩ := h.isFree isFree
      rw [List.append_nil]
      exact h.behind (fun _ _ _ hwaits => hwaits)
        (sound.enters hfree (h.waits c call spins))
        fun c' call' place' hinside => absurd hinside (hnobody c' call' place')
  | @goesOn c call place place' s inside step =>
      obtain ⟨hlocked, hbusy, honly⟩ := h.inside inside
      obtain ⟨hbusy', hkept⟩ := sound.goesOn hbusy step
      have hstate := h.behind hkept hbusy' honly
      rw [← hlocked] at hstate
      rwa [List.append_nil]
  | @returns c call place r s inside step =>
      obtain ⟨-, hbusy, honly⟩ := h.inside inside
      obtain ⟨hfree, hkept⟩ := sound.returns hbusy step
      exact h.leaves hkept hfree honly
  | moves moved =>
      rw [List.append_nil]
      exact h.kept (by simp) (sound.moves log moved)

/-- The rule: assertions that every step keeps hold in every run. -/
theorem Sound.run (sound : A.Sound O) (hinit : A.isFree [] s)
    (h : Run O s calls log st) : A.Hold log st := by
  induction h with
  | init =>
      refine ⟨fun _ => ⟨hinit, ?_⟩, ?_, ?_⟩
      · intro c call place hinside
        cases hinside
      · intro c call hspins
        cases hspins
      · intro hlocked
        cases hlocked
  | step before step ih => exact sound.step ih (Does.of_step step)

end Assertions

end Runs

end Monitor
