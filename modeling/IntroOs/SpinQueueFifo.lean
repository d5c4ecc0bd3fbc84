/-
What `SpinQueue` is for: whatever the threads do, the values leave in the
order in which they came, and every node that is allocated is in one place.
-/
import IntroOs.SpinQueue

namespace IntroOs

namespace SpinQueue

open LinkedQueue (Queue Cell Cells Linked)

variable {Thread Node Value Loc : Type}

/-- The values pushed, in the order of the sections of `push`. -/
def pushed (past : List (Thread × Act Node Value Loc)) : List Value :=
  past.filterMap fun e => match e.2 with
    | .link _ value => some value
    | _ => none

/-- The values popped, in the order of the sections of `pop`. -/
def popped (past : List (Thread × Act Node Value Loc)) : List Value :=
  past.filterMap fun e => match e.2 with
    | .unlink _ value => some value
    | _ => none

/-- A queue, seen from outside: what was pushed and not popped. -/
def contents (past : List (Thread × Act Node Value Loc)) : List Value :=
  (pushed past).drop (popped past).length

/-- The life of a node. -/
inductive Phase (Thread : Type) where
  | unallocated
  | allocated (t : Thread)
  | linked
  | unlinked (t : Thread)
deriving DecidableEq

section History

variable [DecidableEq Thread] [DecidableEq Node] [DecidableEq Loc]

def nextPhase (phase : Node → Phase Thread) :
    Thread × Act Node Value Loc → Node → Phase Thread
  | (t, .new node) => Function.update phase node (.allocated t)
  | (_, .link node _) => Function.update phase node .linked
  | (t, .unlink node _) => Function.update phase node (.unlinked t)
  | (_, .delete node) => Function.update phase node .unallocated
  | _ => phase

def phase (past : List (Thread × Act Node Value Loc)) : Node → Phase Thread :=
  past.foldl nextPhase fun _ => .unallocated

def nextMemory (mem : Loc → Value) : Thread × Act Node Value Loc → Loc → Value
  | (_, .write out value) => Function.update mem out value
  | (_, .store x value) => Function.update mem x value
  | _ => mem

/-- The variables after the assignments of the history. -/
def memory (mem : Loc → Value) (past : List (Thread × Act Node Value Loc)) :
    Loc → Value :=
  past.foldl nextMemory mem

/-- What a thread has done. -/
def actsOf (t : Thread) (past : List (Thread × Act Node Value Loc)) :
    List (Act Node Value Loc) :=
  past.filterMap fun e => if e.1 = t then some e.2 else none

/-- A `pop` takes the oldest value, and misses only when there is none;
`empty` says whether there is one.  A node is linked by the `push` that
allocated it, unlinked while linked, and deleted by the `pop` that unlinked
it. -/
def Law (past : List (Thread × Act Node Value Loc)) :
    Thread × Act Node Value Loc → Prop
  | (_, .new node) => phase past node = .unallocated
  | (t, .link node _) => phase past node = .allocated t
  | (_, .unlink node value) =>
      phase past node = .linked ∧ (contents past).head? = some value
  | (_, .miss) => contents past = []
  | (_, .look isEmpty) => isEmpty = true ↔ contents past = []
  | (t, .delete node) => phase past node = .unlinked t
  | _ => True

end History

/-- The acts of a thread between its calls and returns: its own assignments,
and whole calls. -/
inductive Finished : List (Act Node Value Loc) → Prop
  | nil : Finished []
  | store {acts : List (Act Node Value Loc)} (x : Loc) (value : Value)
      (before : Finished acts) : Finished (acts ++ [.store x value])
  | push {acts : List (Act Node Value Loc)} (node : Node) (value : Value)
      (before : Finished acts) :
      Finished (acts ++ [.call (.push value), .new node, .link node value,
        .returns none])
  | pop {acts : List (Act Node Value Loc)} (out : Loc) (node : Node)
      (value : Value) (before : Finished acts) :
      Finished (acts ++ [.call (.pop out), .unlink node value,
        .write out value, .delete node, .returns (some true)])
  | popMiss {acts : List (Act Node Value Loc)} (out : Loc)
      (before : Finished acts) :
      Finished (acts ++ [.call (.pop out), .miss, .returns (some false)])
  | empty {acts : List (Act Node Value Loc)} (isEmpty : Bool)
      (before : Finished acts) :
      Finished (acts ++ [.call .empty, .look isEmpty, .returns (some isEmpty)])

/-- The acts of a call that has not returned yet. -/
inductive Begun (cells : Cells Node Value) :
    Ctl Node Value Loc → List (Act Node Value Loc) → Prop
  | client : Begun cells .client []
  | pushNew (value : Value) :
      Begun cells (.pushNew value) [.call (.push value)]
  | outOfMemory (value : Value) :
      Begun cells .outOfMemory [.call (.push value)]
  | pushWait (node : Node) (value : Value) :
      Begun cells (.pushWait node value) [.call (.push value), .new node]
  | pushHold (node : Node) (value : Value) :
      Begun cells (.pushHold node value) [.call (.push value), .new node]
  | pushed (node : Node) (value : Value) :
      Begun cells (.returns none)
        [.call (.push value), .new node, .link node value]
  | popWait (out : Loc) : Begun cells (.popWait out) [.call (.pop out)]
  | popHold (out : Loc) : Begun cells (.popHold out) [.call (.pop out)]
  | popRead (node : Node) (out : Loc) :
      Begun cells (.popRead node out)
        [.call (.pop out), .unlink node (cells node).value]
  | popDelete (node : Node) (out : Loc) (value : Value) :
      Begun cells (.popDelete node)
        [.call (.pop out), .unlink node value, .write out value]
  | popped (node : Node) (out : Loc) (value : Value) :
      Begun cells (.returns (some true))
        [.call (.pop out), .unlink node value, .write out value, .delete node]
  | missed (out : Loc) :
      Begun cells (.returns (some false)) [.call (.pop out), .miss]
  | emptyWait : Begun cells .emptyWait [.call .empty]
  | emptyHold : Begun cells .emptyHold [.call .empty]
  | looked (isEmpty : Bool) :
      Begun cells (.returns (some isEmpty)) [.call .empty, .look isEmpty]

/-- The node that a thread has allocated and not linked, with its value. -/
def Ctl.pushes : Ctl Node Value Loc → Option (Node × Value)
  | .pushWait node value | .pushHold node value => some (node, value)
  | _ => none

/-- The node that a thread has unlinked and not deleted. -/
def Ctl.pops : Ctl Node Value Loc → Option Node
  | .popRead node _ | .popDelete node => some node
  | _ => none

/-- Whole calls, and what the present one has done. -/
def Traced (cells : Cells Node Value) (ctl : Ctl Node Value Loc)
    (acts : List (Act Node Value Loc)) : Prop :=
  ∃ done part, acts = done ++ part ∧ Finished done ∧ Begun cells ctl part

/-- What it means for a node to be in a phase. -/
def At (s : State Thread Node Value Loc) (nodes : List Node) (node : Node) :
    Phase Thread → Prop
  | .unallocated => s.allocated node = false
  | .allocated t => ∃ value, (s.ctl t).pushes = some (node, value)
  | .linked => node ∈ nodes
  | .unlinked t => (s.ctl t).pops = some node

section Steps

variable [DecidableEq Thread] [DecidableEq Node] [DecidableEq Loc]

/-- Steps that leave the nodes where they are, but for the lock and the
variables. -/
inductive Quiet (t : Thread) (s : State Thread Node Value Loc) :
    Option (Act Node Value Loc) → Bool → (Loc → Value) →
      Ctl Node Value Loc → Ctl Node Value Loc → Prop
  | call (op : Call Value Loc) :
      Quiet t s (some (.call op)) s.locked s.mem .client op.entry
  | store (x : Loc) (value : Value) :
      Quiet t s (some (.store x value)) s.locked
        (Function.update s.mem x value) .client .client
  | outOfMemory (value : Value) :
      Quiet t s none s.locked s.mem (.pushNew value) .outOfMemory
  | pushLock (node : Node) (value : Value) :
      Quiet t s none true s.mem (.pushWait node value) (.pushHold node value)
  | popLock (out : Loc) :
      Quiet t s none true s.mem (.popWait out) (.popHold out)
  | emptyLock : Quiet t s none true s.mem .emptyWait .emptyHold
  | miss (out : Loc)
      (isEmpty : LinkedQueue.unlink s.cells s.queue = none) :
      Quiet t s (some .miss) false s.mem (.popHold out) (.returns (some false))
  | look :
      Quiet t s (some (.look s.queue.head.isNone)) false s.mem .emptyHold
        (.returns (some s.queue.head.isNone))
  | write (node : Node) (out : Loc) :
      Quiet t s (some (.write out (s.cells node).value)) s.locked
        (Function.update s.mem out (s.cells node).value) (.popRead node out)
        (.popDelete node)
  | returns (result : Option Bool) :
      Quiet t s (some (.returns result)) s.locked s.mem (.returns result)
        .client

/-- What a step can do. -/
inductive Move (t : Thread) (s : State Thread Node Value Loc) :
    Option (Act Node Value Loc) → State Thread Node Value Loc → Prop
  | quiet {act : Option (Act Node Value Loc)} {locked : Bool}
      {mem : Loc → Value} {ctl ctl' : Ctl Node Value Loc} (at_ctl : s.ctl t = ctl)
      (how : Quiet t s act locked mem ctl ctl') :
      Move t s act ({ s with locked := locked, mem := mem }.goto t ctl')
  | new {node : Node} {value : Value} (ctl : s.ctl t = .pushNew value)
      (unused : s.allocated node = false) :
      Move t s (some (.new node))
        ({ s with
          allocated := Function.update s.allocated node true
          cells := Function.update s.cells node ⟨value, none⟩ }.goto t
            (.pushWait node value))
  | link {node : Node} {value : Value} (ctl : s.ctl t = .pushHold node value) :
      Move t s (some (.link node value))
        ({ s with
          locked := false
          cells := (LinkedQueue.link s.cells s.queue node).1
          queue := (LinkedQueue.link s.cells s.queue node).2 }.goto t
            (.returns none))
  | unlink {node : Node} {queue : Queue Node} {out : Loc}
      (ctl : s.ctl t = .popHold out)
      (found : LinkedQueue.unlink s.cells s.queue = some (node, queue)) :
      Move t s (some (.unlink node (s.cells node).value))
        ({ s with locked := false, queue := queue }.goto t (.popRead node out))
  | delete {node : Node} (ctl : s.ctl t = .popDelete node) :
      Move t s (some (.delete node))
        ({ s with allocated := Function.update s.allocated node false }.goto t
          (.returns (some true)))

variable {t : Thread} {s s' : State Thread Node Value Loc}
  {act : Option (Act Node Value Loc)}

theorem move_acquire {ctl ctl' : Ctl Node Value Loc} (hctl : s.ctl t = ctl)
    (hquiet : Quiet t s none true s.mem ctl ctl')
    (h : acquire s t ctl' = some (act, s')) : Move t s act s' := by
  unfold acquire at h
  split at h
  · cases h
  · cases h
    exact .quiet hctl hquiet

theorem run_move (h : run t s = some (act, s')) : Move t s act s' := by
  unfold run at h
  split at h
  · next node value hctl =>
      exact move_acquire hctl (.pushLock node value) h
  · next node value hctl =>
      cases h
      exact .link hctl
  · next out hctl => exact move_acquire hctl (.popLock out) h
  · next out hctl =>
      split at h
      · next hmiss =>
          cases h
          exact .quiet hctl (.miss out hmiss)
      · next node queue hfound =>
          cases h
          exact .unlink hctl hfound
  · next node out hctl =>
      cases h
      exact .quiet hctl (.write node out)
  · next node hctl =>
      cases h
      exact .delete hctl
  · next hctl => exact move_acquire hctl .emptyLock h
  · next hctl =>
      cases h
      exact .quiet hctl .look
  · next result hctl =>
      cases h
      exact .quiet hctl (.returns result)
  · cases h
  · cases h
  · cases h

theorem step_move {choice : Choice Node Value Loc}
    (h : step t s choice = some (act, s')) : Move t s act s' := by
  cases choice with
  | run => exact run_move h
  | call op =>
      simp only [step] at h
      split at h
      · next hctl =>
          cases h
          exact .quiet hctl (.call op)
      · cases h
  | store x value =>
      simp only [step] at h
      split at h
      · next hctl =>
          cases h
          exact .quiet hctl (.store x value)
      · cases h
  | new node =>
      simp only [step] at h
      split at h
      · next value hctl =>
          cases node with
          | none =>
              cases h
              exact .quiet hctl (.outOfMemory value)
          | some node =>
              simp only [new] at h
              split at h
              · cases h
              · next hunused =>
                  cases h
                  exact .new hctl (by simpa using hunused)
      · cases h

section Records

variable (past : List (Thread × Act Node Value Loc)) (t : Thread)

section

omit [DecidableEq Thread] [DecidableEq Loc]

theorem phase_concat (a : Act Node Value Loc) :
    phase (past ++ [(t, a)]) = nextPhase (phase past) (t, a) := by
  simp [phase]

end

section

omit [DecidableEq Node] [DecidableEq Loc]

theorem actsOf_self (act : Option (Act Node Value Loc)) :
    actsOf t (past ++ (act.map (Prod.mk t)).toList) =
      actsOf t past ++ act.toList := by
  cases act <;> simp [actsOf]

theorem actsOf_of_ne (act : Option (Act Node Value Loc)) {t' : Thread}
    (hne : t' ≠ t) :
    actsOf t' (past ++ (act.map (Prod.mk t)).toList) = actsOf t' past := by
  cases act <;> simp [actsOf, hne.symm]

end

end Records

/-- What holds in every run, `nodes` being the nodes of the queue. -/
structure Inv (mem : Loc → Value) (past : List (Thread × Act Node Value Loc))
    (s : State Thread Node Value Loc) (nodes : List Node) : Prop where
  linked : Linked s.cells s.queue nodes
  values : popped past ++ nodes.map (fun node => (s.cells node).value) =
    pushed past
  places : ∀ node p, phase past node = p ↔ At s nodes node p
  ready : ∀ t node value, (s.ctl t).pushes = some (node, value) →
    s.cells node = ⟨value, none⟩
  mem : s.mem = memory mem past
  law : History.Along Law past
  traces : ∀ t, Traced s.cells (s.ctl t) (actsOf t past)

section Queue

variable {mem : Loc → Value} {past : List (Thread × Act Node Value Loc)}
  {nodes : List Node}

theorem Inv.contents_eq (h : Inv mem past s nodes) :
    contents past = nodes.map fun node => (s.cells node).value := by
  rw [contents, ← h.values, List.drop_left]

theorem Inv.contents_eq_nil_iff (h : Inv mem past s nodes) :
    contents past = [] ↔ nodes = [] := by
  rw [h.contents_eq, List.map_eq_nil_iff]

/-- A node is in one place only. -/
theorem Inv.not_at (h : Inv mem past s nodes) {node : Node}
    {p q : Phase Thread} (hphase : phase past node = p) (hne : p ≠ q) :
    ¬ At s nodes node q :=
  fun hat => hne (hphase.symm.trans ((h.places node q).mpr hat))

/-- The nodes in use are not unallocated ones. -/
theorem Inv.ne_of_place (h : Inv mem past s nodes) {node other : Node}
    {p : Phase Thread} (hunused : s.allocated node = false)
    (hplace : At s nodes other p) (hp : p ≠ .unallocated) : other ≠ node := by
  rintro rfl
  exact h.not_at ((h.places other p).mpr hplace) hp hunused

section

omit [DecidableEq Node] [DecidableEq Loc]

theorem Begun.congr {cells cells' : Cells Node Value} {ctl : Ctl Node Value Loc}
    {part : List (Act Node Value Loc)} (h : Begun cells ctl part)
    (hsame : ∀ node, ctl.pops = some node →
      (cells' node).value = (cells node).value) : Begun cells' ctl part := by
  cases h with
  | popRead node out =>
      rw [← hsame node rfl]
      exact .popRead node out
  | _ => constructor

theorem Traced.congr {cells cells' : Cells Node Value}
    {ctl : Ctl Node Value Loc} {acts : List (Act Node Value Loc)}
    (h : Traced cells ctl acts)
    (hsame : ∀ node, ctl.pops = some node →
      (cells' node).value = (cells node).value) : Traced cells' ctl acts := by
  obtain ⟨done, part, hacts, hdone, hpart⟩ := h
  exact ⟨done, part, hacts, hdone, hpart.congr hsame⟩

/-- Only the thread that acts writes its own story on. -/
theorem traces_step {cells : Cells Node Value} {ctl : Ctl Node Value Loc}
    (h : ∀ t', Traced s.cells (s.ctl t') (actsOf t' past))
    (hcells : ∀ t' node, (s.ctl t').pops = some node →
      (cells node).value = (s.cells node).value)
    (hself : Traced cells ctl (actsOf t past ++ act.toList)) (t' : Thread) :
    Traced cells (Function.update s.ctl t ctl t')
      (actsOf t' (past ++ (act.map (Prod.mk t)).toList)) := by
  by_cases heq : t' = t
  · subst heq
    rw [Function.update_self, actsOf_self]
    exact hself
  · rw [Function.update_of_ne heq, actsOf_of_ne _ _ _ heq]
    exact (h t').congr (hcells t')

end

/-- Nobody here sees what happens to unallocated cells. -/
theorem Inv.reuse (h : Inv mem past s nodes) {node : Node}
    (hunused : s.allocated node = false) (cell : Cell Node Value) :
    Inv mem past { s with cells := Function.update s.cells node cell } nodes := by
  have hsame : ∀ {other : Node} {p : Phase Thread}, At s nodes other p →
      p ≠ .unallocated →
      Function.update s.cells node cell other = s.cells other := by
    intro other p hplace hp
    exact Function.update_of_ne (h.ne_of_place hunused hplace hp) _ _
  have hlinked : ∀ other ∈ nodes,
      Function.update s.cells node cell other = s.cells other :=
    fun other hother => hsame (p := .linked) hother nofun
  refine ⟨h.linked.congr hlinked, ?_, h.places, ?_, h.mem, h.law, ?_⟩
  · rw [← h.values]
    congr 1
    exact List.map_congr_left fun other hother =>
      congrArg Cell.value (hlinked other hother)
  · intro t other value hpushes
    exact (hsame (p := .allocated t) ⟨value, hpushes⟩ nofun).trans
      (h.ready t other value hpushes)
  · intro t
    refine (h.traces t).congr fun other hpops => ?_
    exact congrArg Cell.value (hsame (p := .unlinked t) hpops nofun)

section

omit [DecidableEq Thread] [DecidableEq Node]

theorem Quiet.owns {locked : Bool} {mem : Loc → Value}
    {ctl ctl' : Ctl Node Value Loc} (h : Quiet t s act locked mem ctl ctl') :
    ctl'.pushes = ctl.pushes ∧ ctl'.pops = ctl.pops := by
  cases h with
  | call op => cases op <;> exact ⟨rfl, rfl⟩
  | _ => exact ⟨rfl, rfl⟩

theorem Quiet.traced {locked : Bool} {mem : Loc → Value}
    {ctl ctl' : Ctl Node Value Loc} (h : Quiet t s act locked mem ctl ctl')
    {acts : List (Act Node Value Loc)} (htraced : Traced s.cells ctl acts) :
    Traced s.cells ctl' (acts ++ act.toList) := by
  obtain ⟨done, part, rfl, hdone, hpart⟩ := htraced
  cases h with
  | call op =>
      cases hpart
      cases op with
      | push value => exact ⟨done, _, by simp, hdone, .pushNew value⟩
      | pop out => exact ⟨done, _, by simp, hdone, .popWait out⟩
      | empty => exact ⟨done, _, by simp, hdone, .emptyWait⟩
  | store x value =>
      cases hpart
      exact ⟨_, [], by simp, hdone.store x value, .client⟩
  | outOfMemory value =>
      cases hpart
      exact ⟨done, _, by simp, hdone, .outOfMemory value⟩
  | pushLock node value =>
      cases hpart
      exact ⟨done, _, by simp, hdone, .pushHold node value⟩
  | popLock out =>
      cases hpart
      exact ⟨done, _, by simp, hdone, .popHold out⟩
  | emptyLock =>
      cases hpart
      exact ⟨done, _, by simp, hdone, .emptyHold⟩
  | miss out _ =>
      cases hpart
      exact ⟨done, _, by simp, hdone, .missed out⟩
  | look =>
      cases hpart
      exact ⟨done, _, by simp, hdone, .looked _⟩
  | write node out =>
      cases hpart
      exact ⟨done, _, by simp, hdone, .popDelete node out (s.cells node).value⟩
  | returns result =>
      cases hpart with
      | pushed node value => exact ⟨_, [], by simp, hdone.push node value, .client⟩
      | popped node out value =>
          exact ⟨_, [], by simp, hdone.pop out node value, .client⟩
      | missed out => exact ⟨_, [], by simp, hdone.popMiss out, .client⟩
      | looked isEmpty => exact ⟨_, [], by simp, hdone.empty isEmpty, .client⟩

theorem Quiet.memory {locked : Bool} {mem' : Loc → Value}
    {ctl ctl' : Ctl Node Value Loc} (h : Quiet t s act locked mem' ctl ctl')
    (hmem : s.mem = memory mem past) :
    mem' = memory mem (past ++ (act.map (Prod.mk t)).toList) := by
  cases h <;> simp [SpinQueue.memory, nextMemory] at hmem ⊢ <;> rw [hmem]

end

section

omit [DecidableEq Thread]

/-- Quiet steps leave the records of the queue and of the nodes alone. -/
theorem Quiet.record {locked : Bool} {mem : Loc → Value}
    {ctl ctl' : Ctl Node Value Loc} (h : Quiet t s act locked mem ctl ctl')
    (past : List (Thread × Act Node Value Loc)) :
    pushed (past ++ (act.map (Prod.mk t)).toList) = pushed past ∧
      popped (past ++ (act.map (Prod.mk t)).toList) = popped past ∧
      phase (past ++ (act.map (Prod.mk t)).toList) = phase past := by
  cases h <;> simp [pushed, popped, phase, nextPhase]

end

theorem Quiet.law (hinv : Inv mem past s nodes) {locked : Bool}
    {mem' : Loc → Value} {ctl ctl' : Ctl Node Value Loc}
    (h : Quiet t s act locked mem' ctl ctl') :
    History.Along Law (past ++ (act.map (Prod.mk t)).toList) := by
  cases h with
  | miss out hmiss =>
      refine hinv.law.concat (hinv.contents_eq_nil_iff.mpr ?_)
      exact (LinkedQueue.unlink_eq_none_iff hinv.linked).mp hmiss
  | look =>
      refine hinv.law.concat ?_
      rw [Law, hinv.contents_eq_nil_iff, Option.isNone_iff_eq_none,
        hinv.linked.head_eq_none_iff]
  | outOfMemory _ => simpa using hinv.law
  | pushLock _ _ => simpa using hinv.law
  | popLock _ => simpa using hinv.law
  | emptyLock => simpa using hinv.law
  | _ => exact hinv.law.concat trivial

/-- The phases a node can be in without another thread than `t` having it. -/
def Phase.By (t : Thread) (p : Phase Thread) : Prop :=
  p = .unallocated ∨ p = .allocated t ∨ p = .linked ∨ p = .unlinked t

/-- The thread has no node in hand but this one. -/
def Ctl.Only (node : Node) (ctl : Ctl Node Value Loc) : Prop :=
  ∀ other, other ≠ node →
    (∀ value, ctl.pushes ≠ some (other, value)) ∧ ctl.pops ≠ some other

section

omit [DecidableEq Loc]

/-- A node goes from one place to another by the hands of `t`: the other nodes
stay where they are. -/
theorem places_step {nodes' : List Node} {e : Thread × Act Node Value Loc}
    (h : ∀ node p, phase past node = p ↔ At s nodes node p) {node : Node}
    {q : Phase Thread}
    (hafter : phase (past ++ [e]) = Function.update (phase past) node q)
    (hctl : ∀ t', t' ≠ t → s'.ctl t' = s.ctl t')
    (honly : (s.ctl t).Only node ∧ (s'.ctl t).Only node)
    (hstay : ∀ other, other ≠ node →
      s'.allocated other = s.allocated other ∧ (other ∈ nodes' ↔ other ∈ nodes))
    (hp : (phase past node).By t) (hq : q.By t)
    (hself : ∀ r, r.By t → (q = r ↔ At s' nodes' node r)) (other : Node)
    (r : Phase Thread) :
    phase (past ++ [e]) other = r ↔ At s' nodes' other r := by
  have hothers : ∀ {t' : Thread}, t' ≠ t →
      (At s' nodes' other (.allocated t') ↔ At s nodes other (.allocated t')) ∧
      (At s' nodes' other (.unlinked t') ↔ At s nodes other (.unlinked t')) := by
    intro t' hne
    simp only [At, hctl t' hne, and_self]
  rw [hafter]
  by_cases heq : other = node
  · subst heq
    rw [Function.update_self]
    by_cases hr : r.By t
    · exact hself r hr
    · have hnot : ¬ At s nodes other r := fun hat =>
        hr ((h other r).mpr hat ▸ hp)
      refine ⟨fun heq => absurd (heq ▸ hq) hr, fun hat => absurd ?_ hnot⟩
      cases r with
      | unallocated => exact absurd (.inl rfl) hr
      | linked => exact absurd (.inr (.inr (.inl rfl))) hr
      | allocated t' =>
          exact (hothers fun heq => hr (.inr (.inl (by rw [heq])))).1.mp hat
      | unlinked t' =>
          exact (hothers fun heq =>
            hr (.inr (.inr (.inr (by rw [heq]))))).2.mp hat
  · rw [Function.update_of_ne heq, h]
    cases r with
    | unallocated => rw [At, At, (hstay other heq).1]
    | linked => exact (hstay other heq).2.symm
    | allocated t' =>
        by_cases ht : t' = t
        · subst ht
          exact ⟨fun ⟨value, hhas⟩ => absurd hhas ((honly.1 other heq).1 value),
            fun ⟨value, hhas⟩ => absurd hhas ((honly.2 other heq).1 value)⟩
        · exact (hothers ht).1.symm
    | unlinked t' =>
        by_cases ht : t' = t
        · subst ht
          exact ⟨fun hhas => absurd hhas (honly.1 other heq).2,
            fun hhas => absurd hhas (honly.2 other heq).2⟩
        · exact (hothers ht).2.symm

end

theorem Inv.places_new (h : Inv mem past s nodes) {node : Node} {value : Value}
    (hctl : s.ctl t = .pushNew value) (hunused : s.allocated node = false) :
    ∀ other r, phase (past ++ [(t, .new node)]) other = r ↔
      At ({ s with allocated := Function.update s.allocated node true }.goto t
        (.pushWait node value)) nodes other r := by
  have hphase := (h.places node .unallocated).mpr hunused
  have hnot : node ∉ nodes := h.not_at (q := .linked) hphase nofun
  refine places_step h.places (phase_concat past t _)
    (fun t' hne => Function.update_of_ne hne _ _) ⟨?_, ?_⟩ ?_ (.inl hphase)
    (.inr (.inl rfl)) ?_
  · intro other hne
    simp [hctl, Ctl.pushes, Ctl.pops]
  · intro other hne
    simp [Ctl.pushes, Ctl.pops, hne.symm]
  · intro other hne
    simp [hne]
  · rintro r (rfl | rfl | rfl | rfl)
    · simp [At]
    · simp [At, Ctl.pushes]
    · simp [At, hnot]
    · simp [At, Ctl.pops]

theorem Inv.places_link (h : Inv mem past s nodes) {node : Node}
    {value : Value} (hctl : s.ctl t = .pushHold node value)
    (cells : Cells Node Value) (queue : Queue Node) :
    ∀ other r, phase (past ++ [(t, .link node value)]) other = r ↔
      At ({ s with locked := false, cells := cells, queue := queue }.goto t
        (.returns none)) (nodes ++ [node]) other r := by
  have hphase : phase past node = .allocated t :=
    (h.places node (.allocated t)).mpr ⟨value, by rw [hctl]; rfl⟩
  have hused : s.allocated node ≠ false :=
    h.not_at (q := .unallocated) hphase nofun
  refine places_step h.places (phase_concat past t _)
    (fun t' hne => Function.update_of_ne hne _ _) ⟨?_, ?_⟩ ?_
    (.inr (.inl hphase)) (.inr (.inr (.inl rfl))) ?_
  · intro other hne
    simp [hctl, Ctl.pushes, Ctl.pops, hne.symm]
  · intro other hne
    simp [Ctl.pushes, Ctl.pops]
  · intro other hne
    simp [hne]
  · rintro r (rfl | rfl | rfl | rfl)
    · simp [At, hused]
    · simp [At, Ctl.pushes]
    · simp [At]
    · simp [At, Ctl.pops]

theorem Inv.places_unlink {node : Node} (h : Inv mem past s (node :: nodes))
    {out : Loc} (hctl : s.ctl t = .popHold out) (queue : Queue Node)
    (value : Value) :
    ∀ other r, phase (past ++ [(t, .unlink node value)]) other = r ↔
      At ({ s with locked := false, queue := queue }.goto t
        (.popRead node out)) nodes other r := by
  have hphase : phase past node = .linked :=
    (h.places node .linked).mpr List.mem_cons_self
  have hused : s.allocated node ≠ false :=
    h.not_at (q := .unallocated) hphase nofun
  have hnot : node ∉ nodes := (List.nodup_cons.mp h.linked.nodup).1
  refine places_step h.places (phase_concat past t _)
    (fun t' hne => Function.update_of_ne hne _ _) ⟨?_, ?_⟩ ?_
    (.inr (.inr (.inl hphase))) (.inr (.inr (.inr rfl))) ?_
  · intro other hne
    simp [hctl, Ctl.pushes, Ctl.pops]
  · intro other hne
    simp [Ctl.pushes, Ctl.pops, hne.symm]
  · intro other hne
    simp [hne]
  · rintro r (rfl | rfl | rfl | rfl)
    · simp [At, hused]
    · simp [At, Ctl.pushes]
    · simp [At, hnot]
    · simp [At, Ctl.pops]

theorem Inv.places_delete (h : Inv mem past s nodes) {node : Node}
    (hctl : s.ctl t = .popDelete node) :
    ∀ other r, phase (past ++ [(t, .delete node)]) other = r ↔
      At ({ s with allocated := Function.update s.allocated node false }.goto t
        (.returns (some true))) nodes other r := by
  have hphase : phase past node = .unlinked t :=
    (h.places node (.unlinked t)).mpr (by rw [At, hctl]; rfl)
  have hnot : node ∉ nodes := h.not_at (q := .linked) hphase nofun
  refine places_step h.places (phase_concat past t _)
    (fun t' hne => Function.update_of_ne hne _ _) ⟨?_, ?_⟩ ?_
    (.inr (.inr (.inr hphase))) (.inl rfl) ?_
  · intro other hne
    simp [hctl, Ctl.pushes, Ctl.pops, hne.symm]
  · intro other hne
    simp [Ctl.pushes, Ctl.pops]
  · intro other hne
    simp [hne]
  · rintro r (rfl | rfl | rfl | rfl)
    · simp [At]
    · simp [At, Ctl.pushes]
    · simp [At, hnot]
    · simp [At, Ctl.pops]

theorem Inv.quiet (h : Inv mem past s nodes) {locked : Bool}
    {mem' : Loc → Value} {ctl ctl' : Ctl Node Value Loc}
    (hctl : s.ctl t = ctl) (hquiet : Quiet t s act locked mem' ctl ctl') :
    Inv mem (past ++ (act.map (Prod.mk t)).toList)
      ({ s with locked := locked, mem := mem' }.goto t ctl') nodes := by
  subst hctl
  obtain ⟨hpushes, hpops⟩ := hquiet.owns
  have hsame : ∀ t', (Function.update s.ctl t ctl' t').pushes =
      (s.ctl t').pushes ∧
      (Function.update s.ctl t ctl' t').pops = (s.ctl t').pops := by
    intro t'
    by_cases heq : t' = t
    · subst heq
      rw [Function.update_self]
      exact ⟨hpushes, hpops⟩
    · rw [Function.update_of_ne heq]
      exact ⟨rfl, rfl⟩
  have hat : ∀ node p,
      At ({ s with locked := locked, mem := mem' }.goto t ctl') nodes node p ↔
        At s nodes node p := by
    intro node p
    cases p with
    | allocated t' => simp only [At, State.goto, (hsame t').1]
    | unlinked t' => simp only [At, State.goto, (hsame t').2]
    | _ => rfl
  have hready : ∀ t' node value,
      (Function.update s.ctl t ctl' t').pushes = some (node, value) →
        s.cells node = ⟨value, none⟩ := by
    intro t' node value hfresh
    exact h.ready t' node value ((hsame t').1 ▸ hfresh)
  obtain ⟨hpush, hpop, hphase⟩ := hquiet.record past
  refine ⟨h.linked, ?_, fun node p => ?_, hready, hquiet.memory h.mem,
    Quiet.law h hquiet, ?_⟩
  · rw [hpop, hpush]
    exact h.values
  · rw [hphase, hat]
    exact h.places node p
  · exact traces_step h.traces (fun _ _ _ => rfl) (hquiet.traced (h.traces t))

section

omit [DecidableEq Node] [DecidableEq Loc]

/-- What the other threads have allocated is ready as it was. -/
theorem ready_step {cells : Cells Node Value} {ctl : Ctl Node Value Loc}
    (h : ∀ t' node value, t' ≠ t → (s.ctl t').pushes = some (node, value) →
      cells node = ⟨value, none⟩)
    (hself : ∀ node value, ctl.pushes = some (node, value) →
      cells node = ⟨value, none⟩) (t' : Thread) (node : Node) (value : Value)
    (hpushes : (Function.update s.ctl t ctl t').pushes = some (node, value)) :
    cells node = ⟨value, none⟩ := by
  by_cases heq : t' = t
  · subst heq
    rw [Function.update_self] at hpushes
    exact hself node value hpushes
  · rw [Function.update_of_ne heq] at hpushes
    exact h t' node value heq hpushes

end

theorem Inv.new (h : Inv mem past s nodes) {node : Node} {value : Value}
    (hctl : s.ctl t = .pushNew value) (hunused : s.allocated node = false)
    (hcell : s.cells node = ⟨value, none⟩) :
    Inv mem (past ++ [(t, .new node)])
      ({ s with allocated := Function.update s.allocated node true }.goto t
        (.pushWait node value)) nodes := by
  have htraced : Traced s.cells (.pushWait node value)
      (actsOf t past ++ (some (.new node)).toList) := by
    obtain ⟨done, part, hacts, hdone, hpart⟩ := h.traces t
    rw [hctl] at hpart
    cases hpart
    exact ⟨done, _, by simp [hacts], hdone, .pushWait node value⟩
  refine ⟨h.linked, ?_, h.places_new hctl hunused, ?_, ?_,
    h.law.concat ((h.places node .unallocated).mpr hunused),
    traces_step h.traces (fun _ _ _ => rfl) htraced⟩
  · simpa [pushed, popped] using h.values
  · refine ready_step (fun t' other value _ => h.ready t' other value) ?_
    rintro other value ⟨⟩
    exact hcell
  · simpa [memory, nextMemory] using h.mem

theorem Inv.delete (h : Inv mem past s nodes) {node : Node}
    (hctl : s.ctl t = .popDelete node) :
    Inv mem (past ++ [(t, .delete node)])
      ({ s with allocated := Function.update s.allocated node false }.goto t
        (.returns (some true))) nodes := by
  have hphase : phase past node = .unlinked t :=
    (h.places node (.unlinked t)).mpr (by rw [At, hctl]; rfl)
  have htraced : Traced s.cells (.returns (some true))
      (actsOf t past ++ (some (.delete node)).toList) := by
    obtain ⟨done, part, hacts, hdone, hpart⟩ := h.traces t
    rw [hctl] at hpart
    cases hpart with
    | popDelete _ out value =>
        exact ⟨done, _, by simp [hacts], hdone, .popped node out value⟩
  refine ⟨h.linked, ?_, h.places_delete hctl, ?_, ?_, h.law.concat hphase,
    traces_step h.traces (fun _ _ _ => rfl) htraced⟩
  · simpa [pushed, popped] using h.values
  · exact ready_step (fun t' other value _ => h.ready t' other value) nofun
  · simpa [memory, nextMemory] using h.mem

theorem Inv.link (h : Inv mem past s nodes) {node : Node} {value : Value}
    (hctl : s.ctl t = .pushHold node value) :
    Inv mem (past ++ [(t, .link node value)])
      ({ s with
        locked := false
        cells := (LinkedQueue.link s.cells s.queue node).1
        queue := (LinkedQueue.link s.cells s.queue node).2 }.goto t
          (.returns none)) (nodes ++ [node]) := by
  have hat : At s nodes node (.allocated t) := ⟨value, by rw [hctl]; rfl⟩
  have hphase := (h.places node (.allocated t)).mpr hat
  have hnot : node ∉ nodes := h.not_at (q := .linked) hphase nofun
  have hcell : s.cells node = ⟨value, none⟩ :=
    h.ready t node value (by rw [hctl]; rfl)
  have htraced : Traced (LinkedQueue.link s.cells s.queue node).1
      (.returns none) (actsOf t past ++ (some (.link node value)).toList) := by
    obtain ⟨done, part, hacts, hdone, hpart⟩ := h.traces t
    rw [hctl] at hpart
    cases hpart
    exact ⟨done, _, by simp [hacts], hdone, .pushed node value⟩
  refine ⟨h.linked.link hnot (by rw [hcell]), ?_, h.places_link hctl _ _, ?_, ?_,
    h.law.concat hphase,
    traces_step h.traces (fun _ _ _ => LinkedQueue.link_value _ _ _ _) htraced⟩
  · have hvalues := h.values
    simp only [pushed, popped] at hvalues
    simp [pushed, popped, LinkedQueue.link_value, hcell, ← hvalues]
  · refine ready_step (fun t' other value _ hpushes => ?_) nofun
    have hother : other ∉ nodes := h.not_at (q := .linked)
      ((h.places other (.allocated t')).mpr ⟨value, hpushes⟩) nofun
    exact (LinkedQueue.link_cells_of_ne h.linked hother).trans
      (h.ready t' other value hpushes)
  · simpa [memory, nextMemory] using h.mem

theorem Inv.unlink {node : Node} (h : Inv mem past s (node :: nodes))
    {queue : Queue Node} {out : Loc} (hctl : s.ctl t = .popHold out)
    (hlinked : Linked s.cells queue nodes) :
    Inv mem (past ++ [(t, .unlink node (s.cells node).value)])
      ({ s with locked := false, queue := queue }.goto t (.popRead node out))
      nodes := by
  have hphase := (h.places node .linked).mpr List.mem_cons_self
  have hhead : (contents past).head? = some (s.cells node).value := by
    rw [h.contents_eq]
    rfl
  have htraced : Traced s.cells (.popRead node out)
      (actsOf t past ++ (some (.unlink node (s.cells node).value)).toList) := by
    obtain ⟨done, part, hacts, hdone, hpart⟩ := h.traces t
    rw [hctl] at hpart
    cases hpart
    exact ⟨done, _, by simp [hacts], hdone, .popRead node out⟩
  refine ⟨hlinked, ?_, h.places_unlink hctl queue _, ?_, ?_,
    h.law.concat ⟨hphase, hhead⟩,
    traces_step h.traces (fun _ _ _ => rfl) htraced⟩
  · have hvalues := h.values
    simp only [pushed, popped] at hvalues
    simp [pushed, popped, ← hvalues]
  · exact ready_step (fun t' other value _ => h.ready t' other value) nofun
  · simpa [memory, nextMemory] using h.mem

theorem Inv.move (h : Inv mem past s nodes) (hmove : Move t s act s') :
    ∃ nodes', Inv mem (past ++ (act.map (Prod.mk t)).toList) s' nodes' := by
  cases hmove with
  | quiet hctl hquiet => exact ⟨nodes, h.quiet hctl hquiet⟩
  | @new node value hctl hunused =>
      have hcells := h.reuse hunused ⟨value, none⟩
      exact ⟨nodes, hcells.new hctl hunused (Function.update_self ..)⟩
  | link hctl => exact ⟨_, h.link hctl⟩
  | unlink hctl hfound =>
      cases nodes with
      | nil =>
          rw [LinkedQueue.unlink_nil h.linked] at hfound
          cases hfound
      | cons first rest =>
          obtain ⟨queue, hqueue, hlinked⟩ := h.linked.unlink
          rw [hqueue] at hfound
          cases hfound
          exact ⟨rest, h.unlink hctl hlinked⟩
  | delete hctl => exact ⟨nodes, h.delete hctl⟩

theorem Run.inv (h : Run mem past s) : ∃ nodes, Inv mem past s nodes := by
  induction h with
  | start cells =>
      refine ⟨[], LinkedQueue.linked_empty cells, rfl, ?_, nofun, rfl,
        History.along_nil, fun t => ⟨[], [], rfl, .nil, .client⟩⟩
      intro node p
      cases p <;> simp [phase, At, initial, Ctl.pushes, Ctl.pops]
  | step _ hstep ih =>
      obtain ⟨nodes, hinv⟩ := ih
      exact hinv.move (step_move hstep)
  | reuse _ hunused cell ih =>
      obtain ⟨nodes, hinv⟩ := ih
      exact ⟨nodes, hinv.reuse hunused cell⟩

/-- A `delete` of the node is owed. -/
def Phase.owed : Phase Thread → Nat
  | .unlinked _ => 1
  | _ => 0

def unlinks (node : Node) (past : List (Thread × Act Node Value Loc)) : Nat :=
  past.countP fun e => match e.2 with
    | .unlink other _ => other = node
    | _ => false

def deletes (node : Node) (past : List (Thread × Act Node Value Loc)) : Nat :=
  past.countP fun e => match e.2 with
    | .delete other => other = node
    | _ => false

section

omit [DecidableEq Thread] [DecidableEq Loc]

/-- Under the law every `unlink` of a node is answered by one `delete`. -/
theorem unlinks_eq (hlaw : History.Along Law past) (node : Node) :
    unlinks node past = deletes node past + (phase past node).owed := by
  induction past using List.reverseRecOn with
  | nil => rfl
  | append_singleton past e ih =>
      obtain ⟨hpast, hlast⟩ := hlaw.last
      have hbooks := ih hpast
      obtain ⟨t, a⟩ := e
      rw [phase_concat]
      simp only [unlinks, deletes, List.countP_append, List.countP_singleton]
        at hbooks ⊢
      cases a with
      | new other =>
          by_cases heq : node = other
          · subst heq
            simp_all [nextPhase, Law, Phase.owed]
          · simp [nextPhase, heq, hbooks]
      | link other value =>
          by_cases heq : node = other
          · subst heq
            simp_all [nextPhase, Law, Phase.owed]
          · simp [nextPhase, heq, hbooks]
      | unlink other value =>
          by_cases heq : node = other
          · subst heq
            simp_all [nextPhase, Law, Phase.owed]
          · simp [nextPhase, heq, Ne.symm heq, hbooks]
      | delete other =>
          by_cases heq : node = other
          · subst heq
            simp_all [nextPhase, Law, Phase.owed]
          · simp [nextPhase, heq, Ne.symm heq, hbooks]
      | _ => simpa [nextPhase] using hbooks

end

/-- The contract of the queue.  Following `next` from `head_` visits finitely
many different nodes, `tail_` is the last of them and both are null together;
what was popped and what is linked is what was pushed.  `Law` says what the
sections do at the queue's contents and in which order a node is allocated,
linked, unlinked and deleted, `Traced` what each call does between its start
and its return, in particular that `pop` returns false without a `write` when
its section has missed, and the variables hold what was written. -/
theorem run_is_fifo (h : Run mem past s) :
    (∃ nodes, Linked s.cells s.queue nodes ∧
      (s.queue.head = none ↔ s.queue.tail = none) ∧
      popped past ++ nodes.map (fun node => (s.cells node).value) =
        pushed past ∧
      ∀ node p, phase past node = p ↔ At s nodes node p) ∧
    History.Along Law past ∧
    (∀ t, Traced s.cells (s.ctl t) (actsOf t past)) ∧
    s.mem = memory mem past ∧
    ∀ node, unlinks node past = deletes node past + (phase past node).owed := by
  obtain ⟨nodes, hinv⟩ := h.inv
  refine ⟨⟨nodes, hinv.linked, ?_, hinv.values, hinv.places⟩, hinv.law,
    hinv.traces, hinv.mem, unlinks_eq hinv.law⟩
  rw [hinv.linked.head_eq_none_iff, hinv.linked.tail_eq_none_iff]

end Queue

/-- Follows a schedule. -/
def follow (s : State Thread Node Value Loc) :
    List (Thread × Choice Node Value Loc) →
      Option (List (Thread × Act Node Value Loc) × State Thread Node Value Loc)
  | [] => some ([], s)
  | (t, choice) :: rest =>
      (step t s choice).bind fun (act, s') =>
        (follow s' rest).map fun (acts, last) =>
          ((act.map (Prod.mk t)).toList ++ acts, last)

theorem Run.follow {mem : Loc → Value}
    {past acts : List (Thread × Act Node Value Loc)}
    (h : Run mem past s) {schedule : List (Thread × Choice Node Value Loc)}
    (hfollow : SpinQueue.follow s schedule = some (acts, s')) :
    Run mem (past ++ acts) s' := by
  induction schedule generalizing past acts s with
  | nil =>
      cases hfollow
      simpa using h
  | cons entry rest ih =>
      simp only [SpinQueue.follow, Option.bind_eq_some_iff,
        Option.map_eq_some_iff] at hfollow
      obtain ⟨⟨act, s₁⟩, hstep, ⟨acts₁, last⟩, hrest, heq⟩ := hfollow
      cases heq
      rw [← List.append_assoc]
      exact ih (h.step hstep) hrest

end Steps

/-- One thread finds the queue empty.  Both push and both pop then, a null
pointer first; a third value goes into a node that has been used before. -/
def handOver : List (Bool × Choice Nat (Option Nat) Unit) :=
  [(true, .call (.pop ())), (true, .run), (true, .run), (true, .run),
    (false, .call (.push none)), (true, .call (.push (some 7))),
    (true, .new (some 0)), (false, .new (some 1)), (false, .run),
    (false, .run), (true, .run), (true, .run), (false, .run), (true, .run),
    (false, .call (.pop ())), (true, .call (.pop ())), (false, .run),
    (false, .run), (true, .run), (true, .run), (true, .run), (true, .run),
    (true, .run), (false, .run), (false, .run), (false, .run),
    (false, .call (.push (some 9))), (false, .new (some 0)), (false, .run),
    (false, .run)]

theorem run_is_fifo_handOver : ∃ past s,
    Run (fun _ => some 1) past s ∧
    follow (initial (fun _ => ⟨none, none⟩) fun _ => some 1) handOver =
      some (past, s) ∧
    popped past = [none, some 7] ∧
    (∃ nodes, Linked s.cells s.queue nodes ∧
      nodes.map (fun node => (s.cells node).value) = [some 9]) ∧
    deletes 0 past = 1 ∧ deletes 1 past = 1 := by
  have hfollow : ∃ past s,
      follow (initial (fun _ => ⟨none, none⟩) fun _ => some 1) handOver =
        some (past, s) ∧ popped past = [none, some 7] ∧
      pushed past = [none, some 7, some 9] ∧
      unlinks 0 past = 1 ∧ unlinks 1 past = 1 ∧
      (phase past 0).owed = 0 ∧ (phase past 1).owed = 0 :=
    ⟨_, _, rfl, rfl, rfl, rfl, rfl, rfl, rfl⟩
  obtain ⟨past, s, heq, hpopped, hpushed, hzero, hone, howed, howed'⟩ :=
    hfollow
  have hrun : Run (fun _ => some 1) past s := Run.follow (.start _) heq
  obtain ⟨⟨nodes, hlinked, -, hvalues, -⟩, -, -, -, hbooks⟩ := run_is_fifo hrun
  rw [hpopped, hpushed] at hvalues
  have hnodes : nodes.map (fun node => (s.cells node).value) = [some 9] :=
    List.append_cancel_left hvalues
  have hbooks₀ := hbooks 0
  have hbooks₁ := hbooks 1
  exact ⟨past, s, hrun, heq, hpopped, ⟨nodes, hlinked, hnodes⟩, by omega,
    by omega⟩

end SpinQueue

end IntroOs
