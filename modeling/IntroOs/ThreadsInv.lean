/-
The invariant of the thread system: the shape of every core, well-formed
queues, exact books of all resources, and saved contexts that can be resumed.
It holds in every state of every run.
-/
import IntroOs.ThreadsOwn

namespace IntroOs

namespace Threads

variable {Core Sem : Type} [DecidableEq Core] [DecidableEq Sem]

/-- The number in the name of a heap block. -/
def Resource.serial : Resource Sem → Option Nat
  | .lock _ => none
  | .tcb id => some id
  | .stack id => some id
  | .node id => some id

/-- The thread whose TCB is about to be allocated. -/
def Ctl.builds : Ctl Core Sem → Option Nat
  | .heapWait (.newTcb id) => some id
  | .heapHold (.newTcb id) => some id
  | .outOfMemory (.newTcb id) => some id
  | _ => none

/-- The node about to be linked, with its value. -/
def Ctl.links : Ctl Core Sem → Option (Nat × Tcb Core)
  | .pushWait _ node value _ => some (node, value)
  | .pushHold _ node value _ => some (node, value)
  | _ => none

/-- The thread is gone or waits in a `to_delete` slot to be freed. -/
def Doomed (m : Machine Core Sem) (id : Nat) : Prop :=
  m.shared.amount (.tcb id) = 0 ∨
    ∃ c, (m.cores c).pc.toDelete = some (.thread id) ∧
      (m.cores c).ctl.done ≠ .deleted

/-- The saved contexts of threads that can be switched to. -/
def Resumable (resume : Resume Sem) : Prop :=
  resume = .threadEntry ∨ resume = .yieldRet ∨ ∃ sem, resume = .downRet sem

/-- The invariant, where `items` lists the nodes of each queue. -/
structure Inv (m : Machine Core Sem) (items : QueueId Sem → List Nat) :
    Prop where
  ctl : ∀ c, CtlOk c (m.shared.sp (.idle c)) (m.cores c).pc (m.cores c).ctl
  idleSp : ∀ c, m.shared.sp (.idle c) = .idleEntry ∨
    m.shared.sp (.idle c) = .idleAfter
  threadSp : ∀ id, Resumable (m.shared.sp (.thread id)) ∨
    (m.shared.sp (.thread id) = .stopRet ∧ Doomed m id)
  linked : ∀ q, LinkedQueue.Linked m.shared.cells (m.shared.queue q) (items q)
  values : ∀ q, ∀ node ∈ items q, ∃ id,
    (m.shared.cells node).value = .thread id
  books : Holdings.Exact (m.own items) m.shared.amount
  fresh : ∀ r id, r.serial = some id → m.shared.nextId ≤ id →
    m.shared.amount r = 0
  building : ∀ c id, (m.cores c).ctl.builds = some id →
    m.shared.amount (.tcb id) = 0
  cells : ∀ c node value, (m.cores c).ctl.links = some (node, value) →
    m.shared.cells node = ⟨value, none⟩

/-- The nodes of the queues after a step from `ctl`. -/
def itemsAfter (ctl : Ctl Core Sem) (items : QueueId Sem → List Nat) :
    QueueId Sem → List Nat :=
  match ctl with
  | .pushHold q node _ _ => Function.update items q (items q ++ [node])
  | .popHold site => Function.update items site.queue (items site.queue).tail
  | _ => items

section Holds

variable {l : CoreState Core Sem} {id : Nat}

section

omit [DecidableEq Core] [DecidableEq Sem]

theorem tcb_mem_holds_of_curr (h : l.pc.curr = some (.thread id)) :
    .tcb id ∈ l.holds := by
  simp [CoreState.holds, h, whole]

end

section

omit [DecidableEq Core]

theorem one_le_count_deleteHolds {done : Done} (h : done ≠ .deleted) :
    1 ≤ (done.deleteHolds (.thread id : Tcb Core)).count
      (.tcb id : Resource Sem) := by
  cases done <;> simp [Done.deleteHolds, whole] at h ⊢

theorem tcb_mem_holds_of_toDelete (h : l.pc.toDelete = some (.thread id))
    (hdone : l.ctl.done ≠ .deleted) : .tcb id ∈ l.holds := by
  have hcount : 1 ≤ (l.ctl.done.deleteHolds (.thread id : Tcb Core)).count
      (.tcb id : Resource Sem) := one_le_count_deleteHolds hdone
  rw [← Multiset.count_pos]
  simp only [CoreState.holds, PerCore.slots, h, Option.elim_some,
    Multiset.count_add]
  omega

theorem not_curr_and_toDelete (hnodup : l.holds.Nodup)
    (hcurr : l.pc.curr = some (.thread id))
    (h : l.pc.toDelete = some (.thread id)) : l.ctl.done = .deleted := by
  by_contra hdone
  have hcount : 1 ≤ (l.ctl.done.deleteHolds (.thread id : Tcb Core)).count
      (.tcb id : Resource Sem) := one_le_count_deleteHolds hdone
  have hwhole : (whole (.thread id : Tcb Core)).count
      (.tcb id : Resource Sem) = 1 := by simp [whole]
  have hle := Multiset.nodup_iff_count_le_one.mp hnodup (.tcb id)
  simp only [CoreState.holds, PerCore.slots, hcurr, h, Option.elim_some,
    Multiset.count_add, hwhole] at hle
  omega

end

end Holds

section Inv

variable {m : Machine Core Sem} {items : QueueId Sem → List Nat}

theorem Inv.amount_of_held (h : Inv m items) (c : Core) {r : Resource Sem}
    (hr : r ∈ (m.cores c).holds) : m.shared.amount r = 1 :=
  h.books.amount_of_mem (a := .core c) hr

/-- A thread that runs is not waiting to be freed. -/
theorem Inv.not_doomed (h : Inv m items) {c : Core} {id : Nat}
    (hcurr : (m.cores c).pc.curr = some (.thread id)) : ¬ Doomed m id := by
  have hmem := tcb_mem_holds_of_curr hcurr
  rintro (hgone | ⟨c', hdelete, hdone⟩)
  · have hone := h.amount_of_held c hmem
    omega
  · have hmem' := tcb_mem_holds_of_toDelete hdelete hdone
    have heq := h.books.home_unique (a := .core c) (b := .core c')
      hmem hmem'
    cases heq
    exact hdone (not_curr_and_toDelete (h.books.nodup (.core c)) hcurr hdelete)

theorem Inv.loadable (h : Inv m items) (c : Core) :
    Loadable c (m.cores c).pc m.shared where
  idle := h.idleSp c
  thread := by
    intro id hcurr
    rcases h.threadSp id with hsp | ⟨-, hdoomed⟩
    · exact hsp
    · exact absurd hdoomed (h.not_doomed hcurr)

/-- What is taken off a queue is its first node, and holds a thread. -/
theorem Inv.unlink_spec (h : Inv m items) {q : QueueId Sem} {node : Nat}
    {rest : Shared Core Sem} (hfound : m.shared.unlink q = some (node, rest)) :
    ∃ left tail, items q = node :: tail ∧
      rest = { m.shared with
        queue := Function.update m.shared.queue q left } ∧
      LinkedQueue.Linked m.shared.cells left tail := by
  obtain ⟨left, hleft, hrest⟩ := unlink_eq hfound
  have hlinked := h.linked q
  cases hitems : items q with
  | nil =>
      rw [hitems] at hlinked
      rw [LinkedQueue.unlink_nil hlinked] at hleft
      cases hleft
  | cons first tail =>
      rw [hitems] at hlinked
      obtain ⟨left', hleft', hlinked'⟩ := hlinked.unlink
      rw [hleft] at hleft'
      cases hleft'
      exact ⟨left, tail, rfl, hrest, hlinked'⟩

theorem Inv.unlink_value (h : Inv m items) {q : QueueId Sem} {node : Nat}
    {rest : Shared Core Sem} (hfound : m.shared.unlink q = some (node, rest)) :
    ∃ id, (m.shared.cells node).value = .thread id := by
  obtain ⟨left, tail, hitems, -, -⟩ := h.unlink_spec hfound
  exact h.values q node (by simp [hitems])

end Inv

section Moves

variable {c : Core} {s : Shared Core Sem} {l : CoreState Core Sem}
  {out : Outcome Core Sem}

/-- Only a context save and the construction of a TCB write its `sp`. -/
theorem Move.sp_eq (h : Move c s l out) {t : Tcb Core}
    (hsave : out.event ≠ some (.save c t))
    (hcreate : out.event ≠ some (.create t)) : out.shared.sp t = s.sp t := by
  cases h with
  | @newTcb pc id _ =>
      have hne : t ≠ .thread id := fun heq => hcreate (by rw [heq])
      simp [Shared.setSp, Shared.alloc, Shared.release, hne]
  | @saveThread resume id _ =>
      have hne : t ≠ .thread id := fun heq => hsave (by rw [heq])
      simp [Shared.setSp, hne]
  | @saveIdle id =>
      have hne : t ≠ .idle c := fun heq => hsave (by rw [heq])
      simp [Shared.setSp, hne]
  | unlink _ hfound =>
      obtain ⟨left, -, rfl⟩ := unlink_eq hfound
      rfl
  | _ => rfl

theorem Move.sp_idle (h : Move c s l out) {c' : Core} (hne : c' ≠ c) :
    out.shared.sp (.idle c') = s.sp (.idle c') := by
  apply h.sp_eq
  · intro hsave
    cases h <;> cases hsave
    exact hne rfl
  · intro hcreate
    cases h <;> cases hcreate

theorem Move.sp_idle_self (h : Move c s l out) :
    out.shared.sp (.idle c) = s.sp (.idle c) ∨
      out.shared.sp (.idle c) = .idleAfter := by
  by_cases hsave : out.event = some (.save c (.idle c))
  · right
    cases h <;> cases hsave
    simp [Shared.setSp]
  · left
    apply h.sp_eq hsave
    intro hcreate
    cases h <;> cases hcreate

/-- What a step leaves in the `sp` of a thread. -/
theorem Move.sp_thread (h : Move c s l out) (id : Nat) :
    out.shared.sp (.thread id) = s.sp (.thread id) ∨
      out.shared.sp (.thread id) = .threadEntry ∨
      ∃ resume, Leaves resume ∧ out.shared.sp (.thread id) = resume ∧
        out.core = ⟨asks c (.thread id) resume, .switchLoad⟩ := by
  by_cases hsave : out.event = some (.save c (.thread id))
  · right
    right
    cases h <;> cases hsave
    exact ⟨_, ‹_›, by simp [Shared.setSp], rfl⟩
  · by_cases hcreate : out.event = some (.create (.thread id))
    · right
      left
      cases h <;> cases hcreate
      simp [Shared.setSp]
    · exact Or.inl (h.sp_eq hsave hcreate)

theorem Move.sp_of_create (h : Move c s l out) {id : Nat}
    (hcreate : out.event = some (.create (.thread id))) :
    out.shared.sp (.thread id) = .threadEntry := by
  cases h <;> cases hcreate
  simp [Shared.setSp]

/-- A thread stays in `to_delete` until its TCB is freed. -/
theorem Move.toDelete_eq (h : Move c s l out) {id : Nat}
    (hslot : l.pc.toDelete = some (.thread id)) (hdone : l.ctl.done ≠ .deleted) :
    (out.core.pc.toDelete = some (.thread id) ∧
      out.core.ctl.done ≠ .deleted) ∨
    (out.core.ctl.done = .deleted ∧
      out.shared.blocks = s.blocks.erase (.tcb (.thread id))) := by
  cases h with
  | silent hsilent =>
      cases hsilent with
      | deleted => exact absurd rfl hdone
      | _ => exact Or.inl ⟨hslot, nofun⟩
  | spin hspins _ =>
      cases hspins with
      | heap op =>
          refine Or.inl ⟨hslot, ?_⟩
          cases op <;> exact nofun
      | _ => exact Or.inl ⟨hslot, nofun⟩
  | @deleteTcb id' =>
      cases hslot
      exact Or.inr ⟨rfl, rfl⟩
  | @link pc q node value site =>
      refine Or.inl ⟨hslot, ?_⟩
      cases site <;> exact nofun
  | @popEmpty pc site _ =>
      refine Or.inl ⟨hslot, ?_⟩
      cases site <;> exact nofun
  | _ => first | exact Or.inl ⟨hslot, nofun⟩ | cases hslot

/-- What a step does to the heap: nothing, a block freed, or the block it is
in the middle of allocating. -/
theorem Move.blocks_cases (h : Move c s l out) :
    (out.shared.nextId = s.nextId ∧
      (out.shared.blocks = s.blocks ∨
        ∃ block, out.shared.blocks = s.blocks.erase block)) ∨
    (out.shared.nextId = s.nextId + 1 ∧
      ∃ block, out.shared.blocks = block :: s.blocks ∧
        (block = .stack (.thread s.nextId) ∨ block = .node s.nextId ∨
          ∃ id, block = .tcb (.thread id) ∧ l.ctl.builds = some id ∧
            out.event = some (.create (.thread id)))) := by
  cases h with
  | newStack _ => exact Or.inr ⟨rfl, _, rfl, Or.inl rfl⟩
  | newTcb _ => exact Or.inr ⟨rfl, _, rfl, Or.inr (Or.inr ⟨_, rfl, rfl, rfl⟩)⟩
  | newNode _ => exact Or.inr ⟨rfl, _, rfl, Or.inr (Or.inl rfl)⟩
  | dispatch => exact Or.inl ⟨rfl, Or.inr ⟨_, rfl⟩⟩
  | granted => exact Or.inl ⟨rfl, Or.inr ⟨_, rfl⟩⟩
  | deleteStack => exact Or.inl ⟨rfl, Or.inr ⟨_, rfl⟩⟩
  | deleteTcb => exact Or.inl ⟨rfl, Or.inr ⟨_, rfl⟩⟩
  | unlink _ hfound =>
      obtain ⟨left, -, rfl⟩ := unlink_eq hfound
      exact Or.inl ⟨rfl, Or.inl rfl⟩
  | _ => exact Or.inl ⟨rfl, Or.inl rfl⟩

/-- A step makes a heap block only where it is in the middle of doing so. -/
theorem Move.amount_le (h : Move c s l out) {r : Resource Sem} {id : Nat}
    (hserial : r.serial = some id)
    (hid : r = .tcb id ∨ (id = s.nextId → out.shared.nextId = s.nextId))
    (htcb : r = .tcb id → out.event ≠ some (.create (.thread id))) :
    out.shared.amount r ≤ s.amount r := by
  obtain ⟨block, hblock⟩ : ∃ block, r.block Core = some block := by
    cases r with
    | lock lock => cases hserial
    | tcb id => exact ⟨_, rfl⟩
    | stack id => exact ⟨_, rfl⟩
    | node id => exact ⟨_, rfl⟩
  rw [amount_eq_count hblock, amount_eq_count hblock]
  rcases h.blocks_cases with ⟨-, hsame | ⟨freed, hfreed⟩⟩ |
    ⟨hnext, new, hnew, hwhich⟩
  · rw [hsame]
  · rw [hfreed]
    exact List.erase_sublist.count_le block
  · have hne : new ≠ block := by
      rintro rfl
      rcases hwhich with rfl | rfl | ⟨id', rfl, -, hcreate⟩
      · cases r <;> cases hblock
        cases hserial
        rcases hid with htcb | hsame
        · cases htcb
        · have heq := hsame rfl
          omega
      · cases r <;> cases hblock
        cases hserial
        rcases hid with htcb | hsame
        · cases htcb
        · have heq := hsame rfl
          omega
      · cases r <;> cases hblock
        cases hserial
        exact htcb rfl hcreate
    rw [hnew, List.count_cons_of_ne hne]

/-- A step that leaves the queues alone. -/
structure QueuesKept (s : Shared Core Sem) (l : CoreState Core Sem)
    (out : Outcome Core Sem) : Prop where
  queue : out.shared.queue = s.queue
  cells : ∀ node, node ≠ s.nextId → out.shared.cells node = s.cells node
  link : ∀ q t, out.event ≠ some (.link q t)
  unlink : ∀ caller q t, out.event ≠ some (.unlink caller q t)
  push : ∀ q node value site, l.ctl ≠ .pushHold q node value site
  pop : ∀ site, l.ctl = .popHold site → s.unlink site.queue = none

/-- What a step does to the queues. -/
theorem Move.queue_cases (h : Move c s l out) :
    (∃ q node value site, l.ctl = .pushHold q node value site ∧
      out = ⟨some (.link q value), ⟨l.pc, pushReturn site⟩,
        (s.link q node).release (.queue q)⟩) ∨
    (∃ site caller node rest, l.ctl = .popHold site ∧
      l.pc.curr = some caller ∧ s.unlink site.queue = some (node, rest) ∧
      out = ⟨some (.unlink caller site.queue (s.cells node).value),
        ⟨l.pc, .heapWait (.deleteNode node (s.cells node).value site)⟩,
        rest.release (.queue site.queue)⟩) ∨
    QueuesKept s l out := by
  cases h with
  | link => exact Or.inl ⟨_, _, _, _, rfl, rfl⟩
  | unlink hcurr hfound =>
      exact Or.inr (Or.inl ⟨_, _, _, _, rfl, hcurr, hfound, rfl⟩)
  | popEmpty hempty =>
      exact Or.inr (Or.inr ⟨rfl, fun _ _ => rfl, nofun, nofun, nofun,
        fun site hsite => by cases hsite; exact hempty⟩)
  | newNode _ =>
      refine Or.inr (Or.inr ⟨rfl, fun node hne => ?_, nofun, nofun, nofun,
        nofun⟩)
      exact Function.update_of_ne hne _ _
  | silent hsilent =>
      refine Or.inr (Or.inr ⟨rfl, fun _ _ => rfl, nofun, nofun, ?_, ?_⟩)
      · intro q node value site
        cases hsilent <;> exact nofun
      · intro site
        cases hsilent <;> exact nofun
  | spin hspins _ =>
      refine Or.inr (Or.inr ⟨rfl, fun _ _ => rfl, nofun, nofun, ?_, ?_⟩)
      · intro q node value site
        cases hspins <;> exact nofun
      · intro site
        cases hspins <;> exact nofun
  | _ =>
      exact Or.inr (Or.inr ⟨rfl, fun _ _ => rfl, nofun, nofun, nofun, nofun⟩)

end Moves

section Step

variable {m : Machine Core Sem} {items : QueueId Sem → List Nat} {c : Core}
  {out : Outcome Core Sem}

/-- The machine after core `c` has moved. -/
def Machine.after (m : Machine Core Sem) (c : Core)
    (out : Outcome Core Sem) : Machine Core Sem :=
  ⟨Function.update m.cores c out.core, out.shared⟩

section

omit [DecidableEq Sem]

theorem after_core_self : (m.after c out).cores c = out.core := by
  simp [Machine.after]

theorem after_core_of_ne {c' : Core} (hne : c' ≠ c) :
    (m.after c out).cores c' = m.cores c' := by
  simp [Machine.after, hne]

end

theorem Inv.items_nil (h : Inv m items) {q : QueueId Sem}
    (hempty : m.shared.unlink q = none) : items q = [] := by
  unfold Shared.unlink at hempty
  rw [Option.map_eq_none_iff] at hempty
  exact (LinkedQueue.unlink_eq_none_iff (h.linked q)).mp hempty

theorem QueuesKept.itemsAfter_eq (hinv : Inv m items)
    (h : QueuesKept m.shared (m.cores c) out) :
    itemsAfter (m.cores c).ctl items = items := by
  unfold itemsAfter
  split
  · next heq => exact absurd heq (h.push _ _ _ _)
  · next site heq =>
      have hnil := hinv.items_nil (h.pop site heq)
      rw [hnil]
      exact Function.update_eq_self_iff.mpr hnil.symm
  · rfl

section

omit [DecidableEq Core] [DecidableEq Sem]

theorem node_mem_queueHolds (cells : LinkedQueue.Cells Nat (Tcb Core))
    {nodes : List Nat} {node : Nat} (h : node ∈ nodes) :
    .node node ∈ (queueHolds cells nodes : Multiset (Resource Sem)) := by
  induction nodes with
  | nil => cases h
  | cons first rest ih =>
      rcases List.mem_cons.mp h with rfl | hrest
      · simp [queueHolds]
      · simp [queueHolds, ih hrest]

/-- A node about to be linked is allocated. -/
theorem node_mem_holds_of_links {l : CoreState Core Sem} {node : Nat}
    {value : Tcb Core} (h : l.ctl.links = some (node, value)) :
    .node node ∈ l.holds := by
  obtain ⟨pc, ctl⟩ := l
  cases ctl <;> cases h <;> simp [CoreState.holds, Ctl.holds]

theorem queueHolds_congr {cells cells' : LinkedQueue.Cells Nat (Tcb Core)}
    {nodes : List Nat}
    (h : ∀ node ∈ nodes, (cells' node).value = (cells node).value) :
    (queueHolds cells' nodes : Multiset (Resource Sem)) =
      queueHolds cells nodes := by
  induction nodes with
  | nil => rfl
  | cons node rest ih =>
      simp only [queueHolds]
      rw [h node List.mem_cons_self,
        ih fun other hother => h other (List.mem_cons_of_mem _ hother)]

theorem queueHolds_concat (cells : LinkedQueue.Cells Nat (Tcb Core))
    (nodes : List Nat) (node : Nat) :
    (queueHolds cells (nodes ++ [node]) : Multiset (Resource Sem)) =
      queueHolds cells nodes + ({.node node} + whole (cells node).value) := by
  induction nodes with
  | nil => simp [queueHolds]
  | cons first rest ih =>
      simp only [List.cons_append, queueHolds, ih, add_assoc]

/-- A push hands its node and its thread over to the queue. -/
theorem pushReturn_holds {pc : PerCore Core Sem} {idleSp : Resume Sem}
    {q : QueueId Sem} {node : Nat} {value : Tcb Core} {site : PushSite Sem}
    (hok : PushOk c idleSp pc q value site) :
    (⟨pc, pushReturn site⟩ : CoreState Core Sem).holds +
        ({.node node} + whole value) + {.lock (.queue q)} =
      (⟨pc, .pushHold q node value site⟩ : CoreState Core Sem).holds := by
  cases site with
  | go =>
      simp only [CoreState.holds, pushReturn, Ctl.done, Ctl.holds,
        PushSite.holds]
      abel
  | up sem =>
      simp only [CoreState.holds, pushReturn, Ctl.done, Ctl.holds,
        PushSite.holds]
      abel
  | deferred =>
      obtain ⟨id, sem, -, rfl, rfl⟩ := hok
      simp only [CoreState.holds, PerCore.slots, asks, pushReturn, Ctl.done,
        Ctl.holds, PushSite.holds, Option.elim_some, Option.elim_none,
        Done.queueHolds, Done.unlockHolds]
      abel
  | reschedule =>
      obtain ⟨id, -, rfl, rfl⟩ := hok
      simp only [CoreState.holds, PerCore.slots, asks, pushReturn, Ctl.done,
        Ctl.holds, PushSite.holds, Option.elim_some, Option.elim_none,
        Done.rescheduleHolds]
      abel

end

theorem Inv.amount_of_queued (h : Inv m items) {q : QueueId Sem} {node : Nat}
    (hnode : node ∈ items q) : m.shared.amount (.node node) = 1 :=
  h.books.amount_of_mem (a := .queue q) (node_mem_queueHolds _ hnode)

theorem Inv.ne_nextId (h : Inv m items) {node : Nat}
    (hone : m.shared.amount (.node node) = 1) : node ≠ m.shared.nextId := by
  rintro rfl
  have hzero := h.fresh (.node m.shared.nextId) _ rfl (Nat.le_refl _)
  omega

theorem Inv.links_ne (h : Inv m items) {node : Nat} {value : Tcb Core}
    (hlinks : (m.cores c).ctl.links = some (node, value)) (q : QueueId Sem) :
    node ∉ items q := by
  intro hnode
  have heq := h.books.home_unique (a := .core c) (b := .queue q)
    (node_mem_holds_of_links hlinks) (node_mem_queueHolds _ hnode)
  cases heq

/-- The nodes of every queue are what `itemsAfter` says. -/
theorem Inv.linked_step (h : Inv m items)
    (hmove : Move c m.shared (m.cores c) out) (q : QueueId Sem) :
    LinkedQueue.Linked out.shared.cells (out.shared.queue q)
      (itemsAfter (m.cores c).ctl items q) := by
  rcases hmove.queue_cases with ⟨q', node, value, site, hctl, rfl⟩ |
    ⟨site, caller, node, rest, hctl, -, hfound, rfl⟩ | hkept
  · have hlinks : (m.cores c).ctl.links = some (node, value) := by rw [hctl]; rfl
    have hcell := h.cells c node value hlinks
    rw [hctl]
    change LinkedQueue.Linked
      (LinkedQueue.link m.shared.cells (m.shared.queue q') node).1
      (Function.update m.shared.queue q'
        (LinkedQueue.link m.shared.cells (m.shared.queue q') node).2 q)
      (Function.update items q' (items q' ++ [node]) q)
    by_cases heq : q = q'
    · subst heq
      rw [Function.update_self, Function.update_self]
      exact (h.linked q).link (h.links_ne hlinks q) (by rw [hcell])
    · rw [Function.update_of_ne heq, Function.update_of_ne heq]
      refine (h.linked q).congr fun other hother => ?_
      refine LinkedQueue.link_cells_of_ne (h.linked q') fun hother' => ?_
      have hhome := h.books.home_unique (a := .queue q) (b := .queue q')
        (node_mem_queueHolds _ hother) (node_mem_queueHolds _ hother')
      cases hhome
      exact heq rfl
  · obtain ⟨left, tail, hitems, rfl, hlinked⟩ := h.unlink_spec hfound
    rw [hctl]
    change LinkedQueue.Linked m.shared.cells
      (Function.update m.shared.queue site.queue left q)
      (Function.update items site.queue (items site.queue).tail q)
    by_cases heq : q = site.queue
    · subst heq
      rw [Function.update_self, Function.update_self, hitems]
      exact hlinked
    · rw [Function.update_of_ne heq, Function.update_of_ne heq]
      exact h.linked q
  · rw [hkept.itemsAfter_eq h, hkept.queue]
    refine (h.linked q).congr fun node hnode => ?_
    exact hkept.cells node (h.ne_nextId (h.amount_of_queued hnode))

/-- Values of cells in use never change. -/
theorem Move.value_eq (hmove : Move c m.shared (m.cores c) out) {node : Nat}
    (hne : node ≠ m.shared.nextId) :
    (out.shared.cells node).value = (m.shared.cells node).value := by
  rcases hmove.queue_cases with ⟨q, node', value, site, -, rfl⟩ |
    ⟨site, caller, node', rest, -, -, hfound, rfl⟩ | hkept
  · exact LinkedQueue.link_value m.shared.cells (m.shared.queue q) node' node
  · obtain ⟨left, -, rfl⟩ := unlink_eq hfound
    rfl
  · rw [hkept.cells node hne]

/-- The nodes of a queue were there before, or the one linked just now. -/
theorem Inv.mem_itemsAfter (h : Inv m items)
    (hmove : Move c m.shared (m.cores c) out) {q : QueueId Sem} {node : Nat}
    (hnode : node ∈ itemsAfter (m.cores c).ctl items q) :
    (node ∈ items q ∧
      (out.shared.cells node).value = (m.shared.cells node).value) ∨
    ∃ value site, (m.cores c).ctl = .pushHold q node value site ∧
      out.event = some (.link q value) ∧
      (out.shared.cells node).value = value := by
  have hold : ∀ q, node ∈ items q →
      node ∈ items q ∧
        (out.shared.cells node).value = (m.shared.cells node).value :=
    fun q hnode =>
      ⟨hnode, hmove.value_eq (h.ne_nextId (h.amount_of_queued hnode))⟩
  rcases hmove.queue_cases with ⟨q', new, value, site, hctl, hout⟩ |
    ⟨site, caller, first, rest, hctl, -, -, -⟩ | hkept
  · simp only [itemsAfter, hctl] at hnode
    by_cases heq : q = q'
    · subst heq
      rw [Function.update_self, List.mem_append, List.mem_singleton] at hnode
      rcases hnode with hnode | rfl
      · exact .inl (hold q hnode)
      · have hlinks : (m.cores c).ctl.links = some (node, value) := by
          rw [hctl]
          rfl
        have hone := h.amount_of_held c (node_mem_holds_of_links hlinks)
        refine .inr ⟨value, site, hctl, by rw [hout], ?_⟩
        rw [hmove.value_eq (h.ne_nextId hone), h.cells c node value hlinks]
    · rw [Function.update_of_ne heq] at hnode
      exact .inl (hold q hnode)
  · left
    simp only [itemsAfter, hctl] at hnode
    by_cases heq : q = site.queue
    · subst heq
      rw [Function.update_self] at hnode
      exact hold _ (List.mem_of_mem_tail hnode)
    · rw [Function.update_of_ne heq] at hnode
      exact hold q hnode
  · rw [hkept.itemsAfter_eq h] at hnode
    exact .inl (hold q hnode)

theorem Inv.values_step (h : Inv m items)
    (hmove : Move c m.shared (m.cores c) out) (q : QueueId Sem) :
    ∀ node ∈ itemsAfter (m.cores c).ctl items q, ∃ id,
      (out.shared.cells node).value = .thread id := by
  intro node hnode
  rcases h.mem_itemsAfter hmove hnode with ⟨hnode, hsame⟩ |
    ⟨value, site, hctl, -, hnew⟩
  · rw [hsame]
    exact h.values q node hnode
  · have hok := h.ctl c
    rw [hctl] at hok
    rw [hnew]
    exact PushOk.value_eq hok

theorem Inv.amount_le_one (h : Inv m items) (r : Resource Sem) :
    m.shared.amount r ≤ 1 :=
  h.books.amount_le r

theorem Inv.freshFor (h : Inv m items) (c : Core) :
    Fresh m.shared (m.cores c).ctl where
  stack := h.fresh _ _ rfl (Nat.le_refl _)
  node := h.fresh _ _ rfl (Nat.le_refl _)
  tcb := fun id hctl => h.building c id (by rw [hctl]; rfl)

section

omit [DecidableEq Sem]

theorem own_core_of_ne {items' : QueueId Sem → List Nat} {c' : Core}
    (hne : c' ≠ c) :
    (m.after c out).own items' (.core c') = m.own items (.core c') := by
  simp only [Machine.own, after_core_of_ne hne]

end

theorem Inv.own_queue (h : Inv m items)
    (hmove : Move c m.shared (m.cores c) out)
    {items' : QueueId Sem → List Nat} {q : QueueId Sem}
    (hq : items' q = items q) :
    (m.after c out).own items' (.queue q) = m.own items (.queue q) := by
  simp only [Machine.own, hq]
  exact queueHolds_congr fun node hnode =>
    hmove.value_eq (h.ne_nextId (h.amount_of_queued hnode))

theorem Inv.books_link (h : Inv m items) {q : QueueId Sem} {node : Nat}
    {value : Tcb Core} {site : PushSite Sem}
    (hctl : (m.cores c).ctl = .pushHold q node value site)
    (hmove : Move c m.shared (m.cores c) out)
    (hout : out = ⟨some (.link q value), ⟨(m.cores c).pc, pushReturn site⟩,
      (m.shared.link q node).release (.queue q)⟩) :
    Holdings.Exact
      ((m.after c out).own (Function.update items q (items q ++ [node])))
      out.shared.amount := by
  have hlinks : (m.cores c).ctl.links = some (node, value) := by rw [hctl]; rfl
  have hone := h.amount_of_held c (node_mem_holds_of_links hlinks)
  have hvalue : (out.shared.cells node).value = value := by
    rw [hmove.value_eq (h.ne_nextId hone), h.cells c node value hlinks]
  have hlock : m.shared.amount (.lock (.queue q)) = 1 :=
    h.amount_of_held c (by simp [CoreState.holds, hctl, Ctl.holds])
  have hok := h.ctl c
  rw [hctl] at hok
  have hbefore : (m.cores c).holds = (⟨(m.cores c).pc,
      .pushHold q node value site⟩ : CoreState Core Sem).holds := by
    rw [← hctl]
  refine h.books.exchange (a := .core c) (b := .queue q) (by simp)
    0 {.lock (.queue q)} ?_ ?_ ?_ ?_
  · rintro (c' | q') hcore hqueue
    · exact own_core_of_ne fun heq => hcore (by rw [heq])
    · refine h.own_queue hmove (Function.update_of_ne ?_ _ _)
      rintro rfl
      exact hqueue rfl
  · have hqueue : (queueHolds out.shared.cells (items q) :
        Multiset (Resource Sem)) = queueHolds m.shared.cells (items q) :=
      h.own_queue hmove rfl
    simp only [Machine.own, Function.update_self, Machine.after]
    rw [queueHolds_concat, hvalue, hqueue, hbefore, ← pushReturn_holds hok, hout]
    abel
  · rw [hout]
    exact books_release hlock
  · intro r
    simpa using h.amount_le_one r

theorem Inv.books_unlink (h : Inv m items) {site : PopSite Sem}
    {caller : Tcb Core} {node : Nat} {rest : Shared Core Sem}
    (hctl : (m.cores c).ctl = .popHold site)
    (hmove : Move c m.shared (m.cores c) out)
    (hfound : m.shared.unlink site.queue = some (node, rest))
    (hout : out =
      ⟨some (.unlink caller site.queue (m.shared.cells node).value),
        ⟨(m.cores c).pc,
          .heapWait (.deleteNode node (m.shared.cells node).value site)⟩,
        rest.release (.queue site.queue)⟩) :
    Holdings.Exact
      ((m.after c out).own
        (Function.update items site.queue (items site.queue).tail))
      out.shared.amount := by
  obtain ⟨left, tail, hitems, hrest, -⟩ := h.unlink_spec hfound
  have hlock : m.shared.amount (.lock (.queue site.queue)) = 1 :=
    h.amount_of_held c (by simp [CoreState.holds, hctl, Ctl.holds])
  refine h.books.exchange (a := .core c) (b := .queue site.queue) (by simp)
    0 {.lock (.queue site.queue)} ?_ ?_ ?_ ?_
  · rintro (c' | q') hcore hqueue
    · exact own_core_of_ne fun heq => hcore (by rw [heq])
    · refine h.own_queue hmove (Function.update_of_ne ?_ _ _)
      rintro rfl
      exact hqueue rfl
  · have hcells : out.shared.cells = m.shared.cells := by
      rw [hout, hrest]
      rfl
    simp only [Machine.own, Function.update_self, Machine.after]
    rw [hcells, hitems, List.tail_cons, hout]
    simp only [queueHolds, CoreState.holds, hctl, Ctl.done, Ctl.holds,
      HeapOp.holds]
    abel
  · rw [hout, hrest]
    exact books_release hlock
  · intro r
    simpa using h.amount_le_one r

/-- The books stay exact. -/
theorem Inv.books_step (h : Inv m items)
    (hmove : Move c m.shared (m.cores c) out) :
    Holdings.Exact
      ((m.after c out).own (itemsAfter (m.cores c).ctl items))
      out.shared.amount := by
  rcases hmove.queue_cases with ⟨q, node, value, site, hctl, hout⟩ |
    ⟨site, caller, node, rest, hctl, -, hfound, hout⟩ | hkept
  · have hitems : itemsAfter (m.cores c).ctl items =
        Function.update items q (items q ++ [node]) := by rw [hctl]; rfl
    rw [hitems]
    exact h.books_link hctl hmove hout
  · have hitems : itemsAfter (m.cores c).ctl items =
        Function.update items site.queue (items site.queue).tail := by
      rw [hctl]
      rfl
    rw [hitems]
    exact h.books_unlink hctl hmove hfound hout
  · rw [hkept.itemsAfter_eq h]
    obtain ⟨gain, lose, hsum, hbooks, hnew⟩ := hmove.balanced h.amount_le_one
      (fun r hr => h.amount_of_held c hr) (h.freshFor c) hkept.link
      hkept.unlink
    refine h.books.change (.core c) gain lose ?_ ?_ hbooks hnew
    · rintro (c' | q) hne
      · exact own_core_of_ne fun heq => hne (by rw [heq])
      · exact h.own_queue hmove rfl
    · simp only [Machine.own, after_core_self]
      exact hsum

theorem Inv.idleSp_step (h : Inv m items)
    (hmove : Move c m.shared (m.cores c) out) (c' : Core) :
    out.shared.sp (.idle c') = .idleEntry ∨
      out.shared.sp (.idle c') = .idleAfter := by
  by_cases hcore : c' = c
  · subst hcore
    rcases hmove.sp_idle_self with hsame | hafter
    · rw [hsame]
      exact h.idleSp c'
    · exact Or.inr hafter
  · rw [hmove.sp_idle hcore]
    exact h.idleSp c'

theorem Inv.ctl_step (h : Inv m items)
    (hmove : Move c m.shared (m.cores c) out) (c' : Core) :
    CtlOk c' (out.shared.sp (.idle c')) ((m.after c out).cores c').pc
      ((m.after c out).cores c').ctl := by
  by_cases hcore : c' = c
  · subst hcore
    rw [after_core_self]
    exact hmove.ctlOk (fun _ _ _ hfound => h.unlink_value hfound) (h.ctl c')
  · rw [after_core_of_ne hcore, hmove.sp_idle hcore]
    exact h.ctl c'

section

omit [DecidableEq Core] [DecidableEq Sem]

theorem stack_mem_holds_of_builds {l : CoreState Core Sem} {id : Nat}
    (h : l.ctl.builds = some id) : .stack id ∈ l.holds := by
  obtain ⟨pc, ctl⟩ := l
  cases ctl with
  | heapWait op => cases op <;> cases h; simp [CoreState.holds, Ctl.holds, HeapOp.holds]
  | heapHold op => cases op <;> cases h; simp [CoreState.holds, Ctl.holds, HeapOp.holds]
  | outOfMemory op => cases op <;> cases h; simp [CoreState.holds, Ctl.holds, HeapOp.holds]
  | _ => cases h

end

theorem Inv.builds_lt (h : Inv m items) {id : Nat}
    (hbuilds : (m.cores c).ctl.builds = some id) : id < m.shared.nextId := by
  by_contra hge
  have hzero := h.fresh (.stack id) id rfl (Nat.le_of_not_lt hge)
  have hone := h.amount_of_held c (stack_mem_holds_of_builds hbuilds)
  omega

theorem Move.builds_of_create {s : Shared Core Sem} {l : CoreState Core Sem}
    (h : Move c s l out) {id : Nat}
    (hcreate : out.event = some (.create (.thread id))) :
    l.ctl = .heapHold (.newTcb id) := by
  cases h <;> cases hcreate
  rfl

theorem Inv.fresh_step (h : Inv m items)
    (hmove : Move c m.shared (m.cores c) out) (r : Resource Sem) (id : Nat)
    (hserial : r.serial = some id) (hid : out.shared.nextId ≤ id) :
    out.shared.amount r = 0 := by
  have hle : m.shared.nextId ≤ out.shared.nextId := by
    rcases hmove.blocks_cases with ⟨hsame, -⟩ | ⟨hnext, -⟩
    · omega
    · omega
  have hzero := h.fresh r id hserial (by omega)
  have hamount : out.shared.amount r ≤ m.shared.amount r := by
    refine hmove.amount_le hserial (Or.inr fun heq => by omega)
      fun _ hcreate => ?_
    have hbuilds : (m.cores c).ctl.builds = some id := by
      rw [hmove.builds_of_create hcreate]
      rfl
    have hlt := h.builds_lt hbuilds
    omega
  omega

/-- Two cores never build the same thread. -/
theorem Inv.builds_unique (h : Inv m items) {c' : Core} {id : Nat}
    (hbuilds : (m.cores c).ctl.builds = some id)
    (hbuilds' : (m.cores c').ctl.builds = some id) : c = c' := by
  have heq := h.books.home_unique (a := .core c) (b := .core c')
    (stack_mem_holds_of_builds hbuilds) (stack_mem_holds_of_builds hbuilds')
  cases heq
  rfl

/-- A core starts to build a thread only under a new name. -/
theorem Move.builds_eq {s : Shared Core Sem} {l : CoreState Core Sem}
    (h : Move c s l out) {id : Nat} (hbuilds : out.core.ctl.builds = some id) :
    (l.ctl.builds = some id ∧ out.event = none) ∨
      (id = s.nextId ∧ out.event = none ∧
        out.shared.amount (.tcb id) = s.amount (.tcb id)) := by
  cases h with
  | silent hsilent => cases hsilent <;> cases hbuilds
  | spin hspins _ =>
      cases hspins with
      | heap op =>
          left
          cases op <;> cases hbuilds
          exact ⟨rfl, rfl⟩
      | _ => cases hbuilds
  | @fail pc op _ =>
      left
      cases op <;> cases hbuilds
      exact ⟨rfl, rfl⟩
  | newStack _ =>
      right
      cases hbuilds
      refine ⟨rfl, rfl, ?_⟩
      simp [Shared.amount, Shared.alloc, Shared.release]
  | @link pc q node value site => cases site <;> cases hbuilds
  | @popEmpty pc site _ => cases site <;> cases hbuilds
  | _ => cases hbuilds

theorem Inv.building_step (h : Inv m items)
    (hmove : Move c m.shared (m.cores c) out) (c' : Core) (id : Nat)
    (hbuilds : ((m.after c out).cores c').ctl.builds = some id) :
    out.shared.amount (.tcb id) = 0 := by
  have hkeep : (m.cores c').ctl.builds = some id →
      out.event ≠ some (.create (.thread id)) →
      out.shared.amount (.tcb id) = 0 := by
    intro hbefore hcreate
    have hzero := h.building c' id hbefore
    have hle := hmove.amount_le (r := .tcb id) rfl (Or.inl rfl)
      fun _ => hcreate
    omega
  by_cases hcore : c' = c
  · subst hcore
    rw [after_core_self] at hbuilds
    rcases hmove.builds_eq hbuilds with ⟨hbefore, hnone⟩ | ⟨rfl, -, hsame⟩
    · exact hkeep hbefore (by rw [hnone]; exact nofun)
    · rw [hsame]
      exact h.fresh _ _ rfl (Nat.le_refl _)
  · rw [after_core_of_ne hcore] at hbuilds
    refine hkeep hbuilds fun hcreate => hcore ?_
    refine h.builds_unique hbuilds ?_
    rw [hmove.builds_of_create hcreate]
    rfl

/-- A core keeps the node it is about to link, or makes a new one. -/
theorem Move.links_eq {s : Shared Core Sem} {l : CoreState Core Sem}
    (h : Move c s l out) {node : Nat} {value : Tcb Core}
    (hlinks : out.core.ctl.links = some (node, value)) :
    (l.ctl.links = some (node, value) ∧ out.shared.cells = s.cells) ∨
      out.shared.cells node = ⟨value, none⟩ := by
  cases h with
  | silent hsilent => cases hsilent <;> cases hlinks
  | spin hspins _ =>
      left
      cases hspins <;> cases hlinks
      exact ⟨rfl, rfl⟩
  | newNode _ =>
      right
      cases hlinks
      exact Function.update_self _ _ _
  | @link pc q node value site => cases site <;> cases hlinks
  | @popEmpty pc site _ => cases site <;> cases hlinks
  | _ => cases hlinks

theorem Inv.cells_step (h : Inv m items)
    (hmove : Move c m.shared (m.cores c) out) (c' : Core) (node : Nat)
    (value : Tcb Core)
    (hlinks : ((m.after c out).cores c').ctl.links = some (node, value)) :
    out.shared.cells node = ⟨value, none⟩ := by
  by_cases hcore : c' = c
  · subst hcore
    rw [after_core_self] at hlinks
    rcases hmove.links_eq hlinks with ⟨hbefore, hsame⟩ | hnew
    · rw [hsame]
      exact h.cells c' node value hbefore
    · exact hnew
  · rw [after_core_of_ne hcore] at hlinks
    have hbefore := h.cells c' node value hlinks
    rw [← hbefore]
    rcases hmove.queue_cases with ⟨q, node', value', site, -, rfl⟩ |
      ⟨site, caller, node', rest, -, -, hfound, rfl⟩ | hkept
    · exact LinkedQueue.link_cells_of_ne (h.linked q) (h.links_ne hlinks q)
    · obtain ⟨left, -, rfl⟩ := unlink_eq hfound
      rfl
    · refine hkept.cells node (h.ne_nextId ?_)
      exact h.amount_of_held c' (node_mem_holds_of_links hlinks)

theorem Inv.doomed_step (h : Inv m items)
    (hmove : Move c m.shared (m.cores c) out) {id : Nat}
    (hcreate : out.event ≠ some (.create (.thread id)))
    (hdoomed : Doomed m id) : Doomed (m.after c out) id := by
  rcases hdoomed with hgone | ⟨c', hslot, hdone⟩
  · left
    have hle := hmove.amount_le (r := .tcb id) rfl (Or.inl rfl) fun _ => hcreate
    change out.shared.amount (.tcb id) = 0
    omega
  · by_cases hcore : c' = c
    · subst hcore
      rcases hmove.toDelete_eq hslot hdone with ⟨hslot', hdone'⟩ | ⟨-, hfreed⟩
      · right
        refine ⟨c', ?_⟩
        rw [after_core_self]
        exact ⟨hslot', hdone'⟩
      · left
        have hle := h.amount_le_one (.tcb id)
        change out.shared.blocks.count (.tcb (.thread id)) = 0
        change m.shared.blocks.count (.tcb (.thread id)) ≤ 1 at hle
        rw [hfreed, List.count_erase_self]
        omega
    · right
      refine ⟨c', ?_⟩
      rw [after_core_of_ne hcore]
      exact ⟨hslot, hdone⟩

theorem Inv.threadSp_step (h : Inv m items)
    (hmove : Move c m.shared (m.cores c) out) (id : Nat) :
    Resumable (out.shared.sp (.thread id)) ∨
      (out.shared.sp (.thread id) = .stopRet ∧ Doomed (m.after c out) id) := by
  by_cases hcreate : out.event = some (.create (.thread id))
  · left
    left
    exact hmove.sp_of_create hcreate
  · rcases hmove.sp_thread id with hsame | hentry | ⟨resume, hleaves, hsp, hcore⟩
    · rw [hsame]
      rcases h.threadSp id with hresumable | ⟨hstop, hdoomed⟩
      · exact Or.inl hresumable
      · exact Or.inr ⟨hstop, h.doomed_step hmove hcreate hdoomed⟩
    · exact Or.inl (Or.inl hentry)
    · rw [hsp]
      cases hleaves with
      | stop =>
          right
          refine ⟨rfl, Or.inr ⟨c, ?_⟩⟩
          rw [after_core_self, hcore]
          exact ⟨rfl, nofun⟩
      | yield => exact Or.inl (Or.inr (Or.inl rfl))
      | down sem => exact Or.inl (Or.inr (Or.inr ⟨sem, rfl⟩))

/-- Every move keeps the invariant. -/
theorem Inv.move (h : Inv m items) (hmove : Move c m.shared (m.cores c) out) :
    Inv (m.after c out) (itemsAfter (m.cores c).ctl items) where
  ctl := h.ctl_step hmove
  idleSp := h.idleSp_step hmove
  threadSp := h.threadSp_step hmove
  linked := h.linked_step hmove
  values := h.values_step hmove
  books := h.books_step hmove
  fresh := h.fresh_step hmove
  building := h.building_step hmove
  cells := h.cells_step hmove

/-- A step of the machine is a move of its core. -/
theorem Inv.step_move (h : Inv m items) {action : Action Sem}
    {event : Option (Event Core Sem)} {m' : Machine Core Sem}
    (hstep : step c action m = some (event, m')) :
    ∃ out, Move c m.shared (m.cores c) out ∧ event = out.event ∧
      m' = m.after c out := by
  unfold step at hstep
  rw [Option.map_eq_some_iff] at hstep
  obtain ⟨out, hcore, heq⟩ := hstep
  cases heq
  exact ⟨out, coreStep_move (h.loadable c) (h.ctl c) hcore, rfl, rfl⟩

theorem inv_initial (cnt : Sem → Int) :
    Inv (initial cnt : Machine Core Sem) fun _ => [] where
  ctl := fun _ => Or.inl rfl
  idleSp := fun _ => Or.inl rfl
  threadSp := fun _ => Or.inl (Or.inl rfl)
  linked := fun _ => LinkedQueue.linked_empty _
  values := fun _ _ hnode => absurd hnode List.not_mem_nil
  books := by
    intro r
    left
    refine ⟨?_, ?_⟩
    · cases r <;> rfl
    · rintro (c | q) <;> rfl
  fresh := fun r _ _ _ => by cases r <;> rfl
  building := nofun
  cells := nofun

/-- The invariant holds in every state of every run. -/
theorem Run.inv {cnt : Sem → Int}
    {ok : List (Event Core Sem) → Machine Core Sem → Core → Action Sem → Prop}
    {past : List (Event Core Sem)} (h : Run cnt ok past m) :
    ∃ items, Inv m items := by
  induction h with
  | boot => exact ⟨_, inv_initial cnt⟩
  | step _ _ hstep ih =>
      obtain ⟨items, hinv⟩ := ih
      obtain ⟨out, hmove, -, rfl⟩ := hinv.step_move hstep
      exact ⟨_, hinv.move hmove⟩

end Step

end Threads

end IntroOs
