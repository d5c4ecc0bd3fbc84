/-
The thread system on the heap: every `new` and `delete` of the thread layer is
a `malloc` or `free` of the byte-level heap, next to the clients' own.  Once
all threads are reaped the heap looks as it did after `percore::init`.
-/
import IntroOs.ContextSwitch
import IntroOs.HeapFit
import IntroOs.ThreadsBlocks

namespace IntroOs

namespace Threads

open ByteMem (Mem)
open ContextSwitch (kStackSize)
open Heap (Arena Alloc)

variable {Core Sem : Type} [DecidableEq Core] [DecidableEq Sem]

/-- What is asked for each block: a stack, a `TCB` of three words, a `Node` of
two. -/
def Block.bytes : Block Core → Nat
  | .stack _ => kStackSize
  | .tcb _ => 24
  | .node _ => 16

/-- A call of the heap. -/
inductive Request (Core : Type) where
  | new (block : Block Core)
  | delete (block : Block Core)

def HeapOp.request (nextId : Nat) : HeapOp Core Sem → Request Core
  | .newStack => .new (.stack (.thread nextId))
  | .newTcb id => .new (.tcb (.thread id))
  | .newNode _ _ _ => .new (.node nextId)
  | .deleteNode node _ _ => .delete (.node node)
  | .deleteStack tcb => .delete (.stack tcb)
  | .deleteTcb tcb => .delete (.tcb tcb)

/-- The machine, the heap, the pointers the thread layer has to its blocks and
the allocations of the clients. -/
structure System (Core Sem : Type) where
  machine : Machine Core Sem
  heap : Heap.State
  ptr : Block Core → Nat
  clients : List Alloc

/-- The allocation behind a block. -/
def Block.alloc (ptr : Block Core → Nat) (block : Block Core) : Alloc :=
  ⟨ptr block, block.bytes⟩

/-- A step of the whole: of a core, or a call of the heap or a write by the
code that runs on one.  Blocks are written by those who have a pointer into
them, and nobody else. -/
inductive SysStep (A : Arena) (sys : System Core Sem) :
    Option (Event Core Sem) → System Core Sem → Prop
  | run {c : Core} {action : Action Sem} {event : Option (Event Core Sem)}
      {m : Machine Core Sem}
      (outside : ∀ op, (sys.machine.cores c).ctl ≠ .heapHold op)
      (step : step c action sys.machine = some (event, m)) :
      SysStep A sys event { sys with machine := m }
  | new {c : Core} {op : HeapOp Core Sem} {block : Block Core}
      {event : Option (Event Core Sem)} {m : Machine Core Sem} {mem : Mem}
      {ptr : Nat} (ctl : (sys.machine.cores c).ctl = .heapHold op)
      (request : op.request sys.machine.shared.nextId = .new block)
      (returns : Heap.malloc A sys.heap.mem block.bytes = some (mem, some ptr))
      (step : step c .run sys.machine = some (event, m)) :
      SysStep A sys event
        ⟨m, ⟨mem, ⟨ptr, block.bytes⟩ :: sys.heap.live⟩,
          Function.update sys.ptr block ptr, sys.clients⟩
  | fail {c : Core} {op : HeapOp Core Sem} {block : Block Core}
      {event : Option (Event Core Sem)} {m : Machine Core Sem} {mem : Mem}
      (ctl : (sys.machine.cores c).ctl = .heapHold op)
      (request : op.request sys.machine.shared.nextId = .new block)
      (returns : Heap.malloc A sys.heap.mem block.bytes = some (mem, none))
      (step : step c .fail sys.machine = some (event, m)) :
      SysStep A sys event ⟨m, ⟨mem, sys.heap.live⟩, sys.ptr, sys.clients⟩
  | delete {c : Core} {op : HeapOp Core Sem} {block : Block Core}
      {event : Option (Event Core Sem)} {m : Machine Core Sem}
      (ctl : (sys.machine.cores c).ctl = .heapHold op)
      (request : op.request sys.machine.shared.nextId = .delete block)
      (step : step c .run sys.machine = some (event, m)) :
      SysStep A sys event
        ⟨m, ⟨Heap.free A sys.heap.mem (some (sys.ptr block)),
          sys.heap.live.filter fun a => a.ptr ≠ sys.ptr block⟩, sys.ptr,
          sys.clients⟩
  | clientMalloc {size : Nat} {mem : Mem} {result : Option Nat}
      (isFree : sys.machine.shared.locked .heap = false)
      (fits : Heap.Fits size)
      (returns : Heap.malloc A sys.heap.mem size = some (mem, result)) :
      SysStep A sys none
        ⟨sys.machine,
          ⟨mem, result.elim sys.heap.live fun ptr => ⟨ptr, size⟩ :: sys.heap.live⟩,
          sys.ptr,
          result.elim sys.clients fun ptr => ⟨ptr, size⟩ :: sys.clients⟩
  | clientFree {a : Alloc} (isFree : sys.machine.shared.locked .heap = false)
      (owns : a ∈ sys.clients) :
      SysStep A sys none
        ⟨sys.machine, ⟨Heap.free A sys.heap.mem (some a.ptr),
          sys.heap.live.filter fun b => b.ptr ≠ a.ptr⟩, sys.ptr,
          sys.clients.filter fun b => b.ptr ≠ a.ptr⟩
  | write {a : Alloc} {x : Nat} {value : UInt8} (mem_live : a ∈ sys.heap.live)
      (lower : a.ptr ≤ x) (upper : x < Heap.payloadEnd sys.heap.mem a.ptr) :
      SysStep A sys none
        ⟨sys.machine, ⟨Function.update sys.heap.mem x value, sys.heap.live⟩,
          sys.ptr, sys.clients⟩

/-- The runs from the heap that `percore::init` has left. -/
inductive SysRun (A : Arena) (cnt : Sem → Int) (start : Heap.State)
    (ptr : Block Core → Nat) :
    List (Event Core Sem) → System Core Sem → Prop
  | boot : SysRun A cnt start ptr [] ⟨initial cnt, start, ptr, []⟩
  | step {past : List (Event Core Sem)} {sys sys' : System Core Sem}
      {event : Option (Event Core Sem)}
      (before : SysRun A cnt start ptr past sys)
      (step : SysStep A sys event sys') :
      SysRun A cnt start ptr (past ++ event.toList) sys'

/-- The blocks of the idle threads. -/
def idleBlocks (cores : List Core) : List (Block Core) :=
  cores.flatMap fun c => [.stack (.idle c), .tcb (.idle c)]

/-- `operator new`, which does not return when there is no memory. -/
def newBlock (A : Arena) (s : Heap.State × (Block Core → Nat))
    (block : Block Core) : Option (Heap.State × (Block Core → Nat)) :=
  match Heap.malloc A s.1.mem block.bytes with
  | some (mem, some ptr) =>
      some (⟨mem, ⟨ptr, block.bytes⟩ :: s.1.live⟩,
        Function.update s.2 block ptr)
  | _ => none

theorem newBlock_eq {A : Arena} (s : Heap.State × (Block Core → Nat))
    (block : Block Core) {mem : Mem} {p : Nat}
    (h : Heap.malloc A s.1.mem block.bytes = some (mem, some p)) :
    newBlock A s block = some (⟨mem, ⟨p, block.bytes⟩ :: s.1.live⟩,
      Function.update s.2 block p) := by
  rw [newBlock, h]

/-- `percore::init`, after `heap::init`: an idle TCB for every core. -/
def percoreInit (A : Arena) (cores : List Core) (m : Mem) :
    Option (Heap.State × (Block Core → Nat)) :=
  (idleBlocks cores).foldlM (newBlock A) (⟨Heap.init A m, []⟩, fun _ => 0)

/-- Dropping what has a pointer drops the one allocation that has it. -/
theorem perm_filter {live rest : List Alloc} {a : Alloc}
    (h : live.Perm (a :: rest)) (hnodup : (live.map Alloc.ptr).Nodup) :
    (live.filter fun b => b.ptr ≠ a.ptr).Perm rest := by
  have hnodup' : ((a :: rest).map Alloc.ptr).Nodup :=
    (h.map Alloc.ptr).nodup_iff.mp hnodup
  rw [List.map_cons, List.nodup_cons] at hnodup'
  have hrest : rest.filter (fun b => b.ptr ≠ a.ptr) = rest := by
    rw [List.filter_eq_self]
    intro b hb
    simp only [ne_eq, decide_eq_true_eq]
    intro heq
    exact hnodup'.1 (heq ▸ List.mem_map_of_mem hb)
  have hfilter := h.filter fun b => b.ptr ≠ a.ptr
  rw [List.filter_cons_of_neg (by simp), hrest] at hfilter
  exact hfilter

theorem alloc_update {ptr : Block Core → Nat} {block other : Block Core}
    (hne : other ≠ block) (p : Nat) :
    Block.alloc (Function.update ptr block p) other = Block.alloc ptr other := by
  rw [Block.alloc, Function.update_of_ne hne, Block.alloc]

/-- A block that is new to both lists adds one allocation. -/
theorem perm_new {live clients : List Alloc} {idle blocks : List (Block Core)}
    {ptr : Block Core → Nat} {block : Block Core}
    (h : live.Perm ((idle ++ blocks).map (Block.alloc ptr) ++ clients))
    (hidle : block ∉ idle) (hblocks : block ∉ blocks) (p : Nat) :
    ((⟨p, block.bytes⟩ : Alloc) :: live).Perm
      ((idle ++ block :: blocks).map
        (Block.alloc (Function.update ptr block p)) ++ clients) := by
  have hsame : (idle ++ blocks).map (Block.alloc (Function.update ptr block p)) =
      (idle ++ blocks).map (Block.alloc ptr) := by
    refine List.map_congr_left fun other hother => alloc_update ?_ p
    rintro rfl
    exact (List.mem_append.mp hother).elim hidle hblocks
  have hself : Block.alloc (Function.update ptr block p) block =
      ⟨p, block.bytes⟩ := by
    rw [Block.alloc, Function.update_self]
  have hmiddle : (idle ++ block :: blocks).Perm (block :: (idle ++ blocks)) :=
    List.perm_middle
  have hmap := hmiddle.map (Block.alloc (Function.update ptr block p))
  rw [List.map_cons, hself, hsame] at hmap
  exact (h.cons _).trans (hmap.symm.append_right clients)

section Sections

variable {c : Core} {m m' : Machine Core Sem} {op : HeapOp Core Sem}
  {event : Option (Event Core Sem)} {block : Block Core}

section

omit [DecidableEq Core]

theorem Block.fits (block : Block Core) : Heap.Fits block.bytes := by
  unfold Heap.Fits
  cases block <;> simp only [Block.bytes, kStackSize] <;> omega

end

/-- The section of a heap operation does what its request says. -/
theorem step_request (hctl : (m.cores c).ctl = .heapHold op)
    (hstep : step c .run m = some (event, m')) :
    m'.shared.blocks =
      match op.request m.shared.nextId with
      | .new block => block :: m.shared.blocks
      | .delete block => m.shared.blocks.erase block := by
  simp only [step, coreStep, run, hctl, Option.map_eq_some_iff] at hstep
  obtain ⟨out, hout, heq⟩ := hstep
  split at hout
  · cases hout
  · cases hout
    cases heq
    cases op with
    | deleteNode _ _ site => cases site <;> rfl
    | _ => rfl

theorem step_fail_blocks (hctl : (m.cores c).ctl = .heapHold op)
    (hstep : step c .fail m = some (event, m')) :
    m'.shared.blocks = m.shared.blocks := by
  simp only [step, coreStep, hctl, Option.map_eq_some_iff] at hstep
  obtain ⟨out, hout, heq⟩ := hstep
  split at hout
  · cases hout
    cases heq
    rfl
  · cases hout

theorem Move.blocks_outside {s : Shared Core Sem} {l : CoreState Core Sem}
    {out : Outcome Core Sem} (h : Move c s l out)
    (houtside : ∀ op, l.ctl ≠ .heapHold op) :
    out.shared.blocks = s.blocks := by
  cases h with
  | fail _ => rfl
  | newStack _ => exact absurd rfl (houtside _)
  | newTcb _ => exact absurd rfl (houtside _)
  | newNode _ => exact absurd rfl (houtside _)
  | dispatch => exact absurd rfl (houtside _)
  | granted => exact absurd rfl (houtside _)
  | deleteStack => exact absurd rfl (houtside _)
  | deleteTcb => exact absurd rfl (houtside _)
  | unlink _ hfound =>
      obtain ⟨left, -, rfl⟩ := unlink_eq hfound
      rfl
  | _ => rfl

/-- What is about to be freed is allocated. -/
theorem Inv.mem_of_delete {items : QueueId Sem → List Nat} (h : Inv m items)
    (hctl : (m.cores c).ctl = .heapHold op)
    (hrequest : op.request m.shared.nextId = .delete block) :
    block ∈ m.shared.blocks := by
  have hmem : ∀ {r : Resource Sem}, r.block Core = some block →
      r ∈ (m.cores c).holds → block ∈ m.shared.blocks := by
    intro r hblock hheld
    have hone := h.amount_of_held c hheld
    rw [amount_eq_count hblock] at hone
    exact List.count_pos_iff.mp (by omega)
  have hok := h.ctl c
  rw [hctl] at hok
  cases op with
  | deleteNode node value site =>
      cases hrequest
      exact hmem (r := .node node) rfl (node_mem_holds.mpr (by rw [hctl]; rfl))
  | deleteStack tcb =>
      obtain ⟨id, rfl, hpc⟩ := hok
      cases hrequest
      refine hmem (r := .stack id) rfl (stack_mem_holds.mpr (.inr
        ⟨.toDelete, ⟨by rw [CoreState.slot, hpc]; rfl, ?_⟩, fun _ => ?_⟩))
      · rw [hctl]
        simp [Ctl.done, Done.carriedOut]
      · simp [hctl, Ctl.done]
  | deleteTcb tcb =>
      obtain ⟨id, rfl, hpc⟩ := hok
      cases hrequest
      refine hmem (r := .tcb id) rfl (tcb_mem_holds_of_toDelete ?_ ?_)
      · rw [hpc]
        rfl
      · simp [hctl, Ctl.done]
  | _ => cases hrequest

section

omit [DecidableEq Core] [DecidableEq Sem]

/-- The blocks of the run are no idle thread's. -/
theorem request_not_idle {nextId : Nat} (cores : List Core)
    (hrequest : op.request nextId = .new block) :
    block ∉ idleBlocks cores := by
  cases op <;> cases hrequest <;> simp [idleBlocks]

end

end Sections

/-- What the runs keep: the live allocations are those of the idle threads, of
the blocks of the machine and of the clients, and the idle threads' blocks are
where they were. -/
structure SysInv (A : Arena) (cnt : Sem → Int) (cores : List Core)
    (start : Heap.State) (ptr : Block Core → Nat)
    (past : List (Event Core Sem)) (sys : System Core Sem) : Prop where
  run : AnyRun cnt past sys.machine
  reach : Heap.Reachable A sys.heap
  live : sys.heap.live.Perm
    ((idleBlocks cores ++ sys.machine.shared.blocks).map (Block.alloc sys.ptr) ++
      sys.clients)
  idle : ∀ block ∈ idleBlocks cores, sys.ptr block = ptr block
  kept : ∀ block ∈ Heap.liveBlocks A start.mem,
    block ∈ Heap.liveBlocks A sys.heap.mem

section Steps

variable {A : Arena} {cnt : Sem → Int} {cores : List Core}
  {start : Heap.State} {ptr : Block Core → Nat}
  {past : List (Event Core Sem)} {sys : System Core Sem}

theorem SysInv.new (h : SysInv A cnt cores start ptr past sys) {c : Core}
    {op : HeapOp Core Sem} {block : Block Core}
    {event : Option (Event Core Sem)} {m : Machine Core Sem} {mem : Mem}
    {p : Nat} (hctl : (sys.machine.cores c).ctl = .heapHold op)
    (hrequest : op.request sys.machine.shared.nextId = .new block)
    (hreturns : Heap.malloc A sys.heap.mem block.bytes = some (mem, some p))
    (hstep : step c .run sys.machine = some (event, m)) :
    SysInv A cnt cores start ptr (past ++ event.toList)
      ⟨m, ⟨mem, ⟨p, block.bytes⟩ :: sys.heap.live⟩,
        Function.update sys.ptr block p, sys.clients⟩ := by
  have hrun : AnyRun cnt (past ++ event.toList) m := h.run.step trivial hstep
  have hblocks := step_request hctl hstep
  rw [hrequest] at hblocks
  have hheap : Heap.Step A sys.heap (.malloc block.bytes)
      ⟨mem, (some p).elim sys.heap.live fun q =>
        ⟨q, block.bytes⟩ :: sys.heap.live⟩ := .malloc block.fits hreturns
  obtain ⟨segs, hinv⟩ := h.reach.inv
  have hidle := request_not_idle cores hrequest
  have hfresh : block ∉ sys.machine.shared.blocks := by
    have hnodup := hrun.blocks_nodup
    simp only at hblocks
    rw [hblocks] at hnodup
    exact (List.nodup_cons.mp hnodup).1
  refine ⟨hrun, h.reach.step hheap, ?_, ?_, ?_⟩
  · simp only at hblocks ⊢
    rw [hblocks]
    exact perm_new h.live hidle hfresh p
  · intro other hother
    refine (Function.update_of_ne ?_ _ _).trans (h.idle other hother)
    rintro rfl
    exact hidle hother
  · intro other hother
    exact hheap.kept hinv (h.kept other hother) nofun

/-- Freeing an allocation that is no idle thread's leaves theirs alone. -/
theorem SysInv.kept_free (h : SysInv A cnt cores start ptr past sys)
    (hstart : ∀ block ∈ Heap.liveBlocks A start.mem,
      ∃ idle ∈ idleBlocks cores, ptr idle = Heap.ptrOf A block)
    {a : Alloc} {rest : List Alloc}
    (hperm : sys.heap.live.Perm
      (a :: ((idleBlocks cores).map (Block.alloc sys.ptr) ++ rest)))
    {block : Tiling.Block} (hblock : block ∈ Heap.liveBlocks A start.mem) :
    block ∈ Heap.liveBlocks A (Heap.free A sys.heap.mem (some a.ptr)) := by
  obtain ⟨segs, hinv⟩ := h.reach.inv
  have hmem : a ∈ sys.heap.live := hperm.mem_iff.mpr List.mem_cons_self
  have hheap : Heap.Step A sys.heap (.free (some a.ptr))
      ⟨Heap.free A sys.heap.mem (some a.ptr),
        sys.heap.live.filter fun b => b.ptr ≠ a.ptr⟩ := .free hmem
  refine hheap.kept hinv (h.kept block hblock) ?_
  rintro p ⟨⟩ heq
  obtain ⟨idle, hidle, hptr⟩ := hstart block hblock
  have hnodup := (hperm.map Alloc.ptr).nodup_iff.mp hinv.nodup
  rw [List.map_cons, List.nodup_cons] at hnodup
  refine hnodup.1 (List.mem_map.mpr ⟨Block.alloc sys.ptr idle, ?_, ?_⟩)
  · exact List.mem_append_left _ (List.mem_map_of_mem hidle)
  · rw [heq, ← hptr, ← h.idle idle hidle]
    rfl

theorem SysInv.mem_live_of_delete (h : SysInv A cnt cores start ptr past sys)
    {c : Core} {op : HeapOp Core Sem} {block : Block Core}
    (hctl : (sys.machine.cores c).ctl = .heapHold op)
    (hrequest : op.request sys.machine.shared.nextId = .delete block) :
    Block.alloc sys.ptr block ∈ sys.heap.live := by
  obtain ⟨items, hmachine⟩ := h.run.inv
  have hmem := hmachine.mem_of_delete hctl hrequest
  exact h.live.mem_iff.mpr (List.mem_append_left _
    (List.mem_map_of_mem (List.mem_append_right _ hmem)))

theorem SysInv.delete (h : SysInv A cnt cores start ptr past sys)
    (hstart : ∀ block ∈ Heap.liveBlocks A start.mem,
      ∃ idle ∈ idleBlocks cores, ptr idle = Heap.ptrOf A block) {c : Core}
    {op : HeapOp Core Sem} {block : Block Core}
    {event : Option (Event Core Sem)} {m : Machine Core Sem}
    (hctl : (sys.machine.cores c).ctl = .heapHold op)
    (hrequest : op.request sys.machine.shared.nextId = .delete block)
    (hstep : step c .run sys.machine = some (event, m)) :
    SysInv A cnt cores start ptr (past ++ event.toList)
      ⟨m, ⟨Heap.free A sys.heap.mem (some (sys.ptr block)),
        sys.heap.live.filter fun a => a.ptr ≠ sys.ptr block⟩, sys.ptr,
        sys.clients⟩ := by
  have hrun : AnyRun cnt (past ++ event.toList) m := h.run.step trivial hstep
  have hblocks := step_request hctl hstep
  rw [hrequest] at hblocks
  simp only at hblocks
  obtain ⟨items, hmachine⟩ := h.run.inv
  obtain ⟨segs, hinv⟩ := h.reach.inv
  have hmem := hmachine.mem_of_delete hctl hrequest
  have hperm : sys.heap.live.Perm (Block.alloc sys.ptr block ::
      ((idleBlocks cores).map (Block.alloc sys.ptr) ++
        (m.shared.blocks.map (Block.alloc sys.ptr) ++ sys.clients))) := by
    rw [hblocks]
    refine h.live.trans ?_
    rw [List.map_append, List.append_assoc]
    have herase := ((List.perm_cons_erase hmem).map
      (Block.alloc sys.ptr)).append_right sys.clients
    exact (herase.append_left _).trans List.perm_middle
  have hlive := h.mem_live_of_delete hctl hrequest
  refine ⟨hrun, h.reach.step (.free hlive), ?_, h.idle,
    fun other hother => h.kept_free hstart hperm hother⟩
  rw [List.map_append, List.append_assoc]
  exact perm_filter hperm hinv.nodup

theorem SysInv.clientMalloc (h : SysInv A cnt cores start ptr past sys)
    {size : Nat} {mem : Mem} {result : Option Nat} (hfits : Heap.Fits size)
    (hreturns : Heap.malloc A sys.heap.mem size = some (mem, result)) :
    SysInv A cnt cores start ptr past
      ⟨sys.machine,
        ⟨mem, result.elim sys.heap.live fun p => ⟨p, size⟩ :: sys.heap.live⟩,
        sys.ptr, result.elim sys.clients fun p => ⟨p, size⟩ :: sys.clients⟩ := by
  obtain ⟨segs, hinv⟩ := h.reach.inv
  have hheap : Heap.Step A sys.heap (.malloc size) _ := .malloc hfits hreturns
  refine ⟨h.run, h.reach.step hheap, ?_, h.idle,
    fun other hother => hheap.kept hinv (h.kept other hother) nofun⟩
  cases result with
  | none => exact h.live
  | some p => exact (h.live.cons _).trans List.perm_middle.symm

theorem SysInv.clientFree (h : SysInv A cnt cores start ptr past sys)
    (hstart : ∀ block ∈ Heap.liveBlocks A start.mem,
      ∃ idle ∈ idleBlocks cores, ptr idle = Heap.ptrOf A block) {a : Alloc}
    (howns : a ∈ sys.clients) :
    SysInv A cnt cores start ptr past
      ⟨sys.machine, ⟨Heap.free A sys.heap.mem (some a.ptr),
        sys.heap.live.filter fun b => b.ptr ≠ a.ptr⟩, sys.ptr,
        sys.clients.filter fun b => b.ptr ≠ a.ptr⟩ := by
  obtain ⟨segs, hinv⟩ := h.reach.inv
  have herase := List.perm_cons_erase howns
  have hperm : sys.heap.live.Perm (a ::
      ((idleBlocks cores).map (Block.alloc sys.ptr) ++
        (sys.machine.shared.blocks.map (Block.alloc sys.ptr) ++
          sys.clients.erase a))) := by
    refine h.live.trans ?_
    rw [List.map_append, ← List.append_assoc]
    exact (herase.append_left _).trans List.perm_middle
  have hclients : (sys.clients.map Alloc.ptr).Nodup := by
    have hnodup := (h.live.map Alloc.ptr).nodup_iff.mp hinv.nodup
    rw [List.map_append] at hnodup
    exact hnodup.of_append_right
  have hlive : a ∈ sys.heap.live := hperm.mem_iff.mpr List.mem_cons_self
  refine ⟨h.run, h.reach.step (.free hlive), ?_, h.idle,
    fun other hother => h.kept_free hstart hperm hother⟩
  refine (perm_filter hperm hinv.nodup).trans ?_
  rw [List.map_append, ← List.append_assoc]
  exact (perm_filter herase hclients).symm.append_left _

theorem SysInv.step (h : SysInv A cnt cores start ptr past sys)
    (hstart : ∀ block ∈ Heap.liveBlocks A start.mem,
      ∃ idle ∈ idleBlocks cores, ptr idle = Heap.ptrOf A block)
    {event : Option (Event Core Sem)} {sys' : System Core Sem}
    (hstep : SysStep A sys event sys') :
    SysInv A cnt cores start ptr (past ++ event.toList) sys' := by
  obtain ⟨segs, hinv⟩ := h.reach.inv
  cases hstep with
  | run houtside hstep =>
      obtain ⟨items, hmachine⟩ := h.run.inv
      obtain ⟨out, hmove, -, rfl⟩ := hmachine.step_move hstep
      refine ⟨h.run.step trivial hstep, h.reach, ?_, h.idle, h.kept⟩
      change List.Perm _
        ((idleBlocks cores ++ out.shared.blocks).map _ ++ sys.clients)
      rw [hmove.blocks_outside houtside]
      exact h.live
  | new hctl hrequest hreturns hstep =>
      exact h.new hctl hrequest hreturns hstep
  | @fail c op block event m mem hctl hrequest hreturns hstep =>
      have hmem := Heap.malloc_none hinv.tiled hreturns
      subst hmem
      refine ⟨h.run.step trivial hstep, h.reach, ?_, h.idle, h.kept⟩
      rw [step_fail_blocks hctl hstep]
      exact h.live
  | delete hctl hrequest hstep => exact h.delete hstart hctl hrequest hstep
  | clientMalloc _ hfits hreturns =>
      rw [Option.toList_none, List.append_nil]
      exact h.clientMalloc hfits hreturns
  | clientFree _ howns =>
      rw [Option.toList_none, List.append_nil]
      exact h.clientFree hstart howns
  | @write a x value hlive hlower hupper =>
      have hheap : Heap.Step A sys.heap (.write x value)
          ⟨Function.update sys.heap.mem x value, sys.heap.live⟩ :=
        .write hlive hlower hupper
      rw [Option.toList_none, List.append_nil]
      exact ⟨h.run, h.reach.step hheap, h.live, h.idle,
        fun other hother => hheap.kept hinv (h.kept other hother) nofun⟩

/-- `new` after `new`, as `percore::init` does it. -/
theorem foldlM_newBlock {blocks : List (Block Core)} {s s' : Heap.State}
    {p p' : Block Core → Nat} (hnodup : blocks.Nodup)
    (hreach : Heap.Reachable A s)
    (hfold : blocks.foldlM (newBlock A) (s, p) = some (s', p')) :
    Heap.Reachable A s' ∧
      s'.live.Perm (blocks.map (Block.alloc p') ++ s.live) ∧
      ∀ block ∉ blocks, p' block = p block := by
  induction blocks generalizing s p with
  | nil =>
      cases hfold
      exact ⟨hreach, List.Perm.refl _, fun _ _ => rfl⟩
  | cons block rest ih =>
      rw [List.foldlM_cons, Option.bind_eq_bind, Option.bind_eq_some_iff] at hfold
      obtain ⟨⟨s₁, p₁⟩, hnew, hrest⟩ := hfold
      unfold newBlock at hnew
      split at hnew
      · next mem q hreturns =>
          cases hnew
          obtain ⟨hnot, hnodup⟩ := List.nodup_cons.mp hnodup
          have hheap : Heap.Step A s (.malloc block.bytes) _ :=
            .malloc block.fits hreturns
          obtain ⟨hreach', hlive, hother⟩ := ih hnodup (hreach.step hheap) hrest
          refine ⟨hreach', ?_, fun other hmem => ?_⟩
          · have hself : Block.alloc p' block = ⟨q, block.bytes⟩ := by
              rw [Block.alloc, hother block hnot, Function.update_self]
            rw [List.map_cons, hself]
            exact hlive.trans List.perm_middle
          · rw [List.mem_cons, not_or] at hmem
            rw [hother other hmem.2, Function.update_of_ne hmem.1]
      · cases hnew

section

omit [DecidableEq Core]

theorem idleBlocks_nodup (hcores : cores.Nodup) : (idleBlocks cores).Nodup := by
  induction cores with
  | nil => exact List.nodup_nil
  | cons c rest ih =>
      obtain ⟨hnot, hrest⟩ := List.nodup_cons.mp hcores
      have hmem : ∀ block ∈ idleBlocks rest, ∃ c' ∈ rest,
          block = .stack (.idle c') ∨ block = .tcb (.idle c') := by
        intro block hblock
        simpa [idleBlocks] using hblock
      have hfresh : ∀ block, (block = .stack (.idle c) ∨
          block = .tcb (.idle c)) → block ∉ idleBlocks rest := by
        rintro block hblock hrest
        obtain ⟨c', hc', hwhich⟩ := hmem block hrest
        have heq : c' = c := by
          rcases hblock with rfl | rfl <;> rcases hwhich with h | h <;>
            cases h <;> rfl
        exact hnot (heq ▸ hc')
      change ([Block.stack (.idle c), .tcb (.idle c)] ++ idleBlocks rest).Nodup
      simp [hfresh, ih hrest]

theorem idle_of_liveBlocks (hreach : Heap.Reachable A start)
    (hlive : start.live.Perm ((idleBlocks cores).map (Block.alloc ptr))) :
    ∀ block ∈ Heap.liveBlocks A start.mem,
      ∃ idle ∈ idleBlocks cores, ptr idle = Heap.ptrOf A block := by
  intro block hblock
  obtain ⟨segs, hinv⟩ := hreach.inv
  rw [Heap.liveBlocks_eq hinv.tiled] at hblock
  have hmem := (hinv.mem_live_iff _).mpr (List.mem_map_of_mem hblock)
  rw [(hlive.map Alloc.ptr).mem_iff, List.map_map, List.mem_map] at hmem
  exact hmem

theorem Block.bytes_ne_zero (block : Block Core) : block.bytes ≠ 0 := by
  cases block <;> simp [Block.bytes, kStackSize]

end

/-- The heap that `percore::init` leaves has the idle threads' blocks only. -/
theorem percoreInit_spec (hcores : cores.Nodup) {mem : Mem}
    (hinit : percoreInit A cores mem = some (start, ptr)) :
    Heap.Reachable A start ∧
      start.live.Perm ((idleBlocks cores).map (Block.alloc ptr)) := by
  obtain ⟨hreach, hlive, -⟩ := foldlM_newBlock (idleBlocks_nodup hcores)
    (.init mem) hinit
  rw [List.append_nil] at hlive
  exact ⟨hreach, hlive⟩

theorem SysRun.inv (hcores : cores.Nodup) {mem : Mem}
    (hinit : percoreInit A cores mem = some (start, ptr))
    (h : SysRun A cnt start ptr past sys) :
    SysInv A cnt cores start ptr past sys := by
  obtain ⟨hreach, hlive⟩ := percoreInit_spec hcores hinit
  induction h with
  | boot =>
      refine ⟨.boot, hreach, ?_, fun _ _ => rfl, fun _ hblock => hblock⟩
      simpa [initial] using hlive
  | step _ hstep ih => exact ih.step (idle_of_liveBlocks hreach hlive) hstep

/-- With nothing but the idle threads' blocks live, the heap is the one they
were allocated in. -/
theorem SysInv.blocks_eq (h : SysInv A cnt cores start ptr past sys)
    (hreach : Heap.Reachable A start)
    (hlive : start.live.Perm ((idleBlocks cores).map (Block.alloc ptr)))
    (hblocks : sys.machine.shared.blocks = []) (hclients : sys.clients = []) :
    Heap.blocks A sys.heap.mem = Heap.blocks A start.mem := by
  obtain ⟨segs, hinv⟩ := h.reach.inv
  obtain ⟨segs₀, hinv₀⟩ := hreach.inv
  refine Heap.blocks_eq_of_liveBlocks_eq h.reach hreach fun block =>
    ⟨fun hblock => ?_, h.kept block⟩
  have hnow := h.live
  rw [hblocks, hclients, List.append_nil, List.append_nil] at hnow
  rw [Heap.liveBlocks_eq hinv.tiled] at hblock
  have hptr := (hinv.mem_live_iff _).mpr (List.mem_map_of_mem hblock)
  rw [(hnow.map Alloc.ptr).mem_iff, List.map_map, List.mem_map] at hptr
  obtain ⟨idle, hidle, heq⟩ := hptr
  have hptr₀ : Heap.ptrOf A block ∈ start.live.map Alloc.ptr := by
    rw [(hlive.map Alloc.ptr).mem_iff, List.map_map, List.mem_map]
    exact ⟨idle, hidle, (h.idle idle hidle).symm.trans heq⟩
  obtain ⟨first, hfirst, hsame⟩ :=
    List.mem_map.mp ((hinv₀.mem_live_iff _).mp hptr₀)
  rw [← Heap.liveBlocks_eq hinv₀.tiled] at hfirst
  have hkept := h.kept first hfirst
  rw [Heap.liveBlocks_eq hinv.tiled] at hkept
  rw [← hinv.block_eq_of_ptr_eq (Tiling.mem_live.mp hkept).1
    (Tiling.mem_live.mp hblock).1 hsame]
  exact hfirst

/-- What a list of blocks takes of the arena at most. -/
def room (blocks : List (Block Core)) : Nat :=
  (blocks.map fun block => Heap.neededFor block.bytes + 16).sum

section

omit [DecidableEq Core]

theorem room_cons (block : Block Core) (rest : List (Block Core)) :
    room (block :: rest) = Heap.neededFor block.bytes + 16 + room rest := by
  rw [room, List.map_cons, List.sum_cons, room]

theorem room_idleBlocks (cores : List Core) :
    room (idleBlocks cores) = 65664 * cores.length := by
  induction cores with
  | nil => rfl
  | cons c rest ih =>
      have hstack := Heap.neededFor_eq (Block.stack (.idle c)).fits
      have htcb := Heap.neededFor_eq (Block.tcb (.idle c)).fits
      rw [idleBlocks, List.flatMap_cons, ← idleBlocks, List.cons_append,
        List.singleton_append, room_cons, room_cons, hstack, htcb, ih,
        List.length_cons]
      simp only [Block.bytes, kStackSize]
      omega

end

/-- Blocks for which there is room are all handed out. -/
theorem newBlocks_granted {blocks : List (Block Core)} {lo : Nat}
    {s : Heap.State × (Block Core → Nat)} (hreach : Heap.Reachable A s.1)
    (hwithin : Heap.Within A s.1.mem lo)
    (hroom : lo + room blocks ≤ Heap.kArenaSize) :
    ∃ built, blocks.foldlM (newBlock A) s = some built ∧
      Heap.Within A built.1.mem (lo + room blocks) := by
  induction blocks generalizing s lo with
  | nil => exact ⟨s, rfl, hwithin⟩
  | cons block rest ih =>
      rw [room_cons] at hroom ⊢
      obtain ⟨segs, hinv⟩ := hreach.inv
      obtain ⟨m', p, hmalloc, hwithin'⟩ := hinv.tiled.malloc_within hwithin
        block.bytes_ne_zero block.fits (by omega)
      have hheap : Heap.Step A s.1 (.malloc block.bytes)
          ⟨m', ⟨p, block.bytes⟩ :: s.1.live⟩ := .malloc block.fits hmalloc
      rw [List.foldlM_cons, newBlock_eq s block hmalloc, ← Nat.add_assoc]
      exact ih (hreach.step hheap) (hwithin'.mono (by omega)) (by omega)

/-- `percore::init` returns, for as many cores as the arena has room for. -/
theorem percoreInit_returns (hcores : cores.length ≤ 31) (mem : Mem) :
    ∃ built, percoreInit A cores mem = some built ∧
      Heap.Within A built.1.mem (65664 * cores.length) := by
  rw [← room_idleBlocks, ← Nat.zero_add (room _)]
  refine newBlocks_granted (.init mem) (Heap.init_within A mem) ?_
  rw [room_idleBlocks, Heap.kArenaSize]
  omega

/-- What one block takes of the arena at most. -/
def blockRoom : Nat := 65584

section

omit [DecidableEq Core]

theorem Block.room_le (block : Block Core) :
    Heap.neededFor block.bytes + 16 ≤ blockRoom := by
  rw [Heap.neededFor_eq block.fits, blockRoom]
  cases block <;> simp only [Block.bytes, kStackSize] <;> omega

end

/-- A step of the machine can be taken on a heap that has room for a block. -/
theorem SysInv.carry_step (h : SysInv A cnt cores start ptr past sys)
    {lo : Nat} (hwithin : Heap.Within A sys.heap.mem lo)
    (hroom : lo + blockRoom ≤ Heap.kArenaSize) {c : Core}
    {action : Action Sem} (haction : action ≠ .fail)
    {event : Option (Event Core Sem)} {m : Machine Core Sem}
    (hstep : Threads.step c action sys.machine = some (event, m)) :
    ∃ sys', SysStep A sys event sys' ∧ sys'.machine = m ∧
      sys'.clients = sys.clients ∧
      Heap.Within A sys'.heap.mem (lo + blockRoom) := by
  obtain ⟨segs, hinv⟩ := h.reach.inv
  by_cases hhold : ∃ op, (sys.machine.cores c).ctl = .heapHold op
  · obtain ⟨op, hctl⟩ := hhold
    have hrun : action = .run := by
      cases action with
      | run => rfl
      | fail => exact absurd rfl haction
      | call op => simp [Threads.step, coreStep, hctl] at hstep
    subst hrun
    cases hrequest : op.request sys.machine.shared.nextId with
    | new block =>
        have hneeded := block.room_le
        obtain ⟨m', p, hmalloc, hwithin'⟩ := hinv.tiled.malloc_within hwithin
          block.bytes_ne_zero block.fits (by omega)
        exact ⟨_, .new hctl hrequest hmalloc hstep, rfl, rfl,
          hwithin'.mono (by omega)⟩
    | delete block =>
        have hlive := h.mem_live_of_delete hctl hrequest
        exact ⟨_, .delete hctl hrequest hstep, rfl, rfl,
          (hinv.free_within hlive hwithin).mono (Nat.le_add_right _ _)⟩
  · exact ⟨_, .run (not_exists.mp hhold) hstep, rfl, rfl,
      hwithin.mono (Nat.le_add_right _ _)⟩

/-- A schedule of the machine can be carried out on a heap that has room for a
block for each of its steps. -/
theorem SysRun.carry (hcores : cores.Nodup) {mem : Mem}
    (hinit : percoreInit A cores mem = some (start, ptr))
    (h : SysRun A cnt start ptr past sys) {lo : Nat}
    (hwithin : Heap.Within A sys.heap.mem lo)
    {schedule : List (Core × Action Sem)}
    (hroom : lo + blockRoom * schedule.length ≤ Heap.kArenaSize)
    (hnever : ∀ entry ∈ schedule, entry.2 ≠ .fail)
    {events : List (Event Core Sem)} {last : Machine Core Sem}
    (hfollow : Threads.follow sys.machine schedule = some (events, last)) :
    ∃ sys', SysRun A cnt start ptr (past ++ events) sys' ∧
      sys'.machine = last ∧ sys'.clients = sys.clients := by
  induction schedule generalizing past sys lo events last with
  | nil =>
      cases hfollow
      rw [List.append_nil]
      exact ⟨sys, h, rfl, rfl⟩
  | cons first rest ih =>
      simp only [Threads.follow, Option.bind_eq_some_iff,
        Option.map_eq_some_iff] at hfollow
      obtain ⟨⟨event, m⟩, hstep, ⟨later, last'⟩, hlater, heq⟩ := hfollow
      cases heq
      rw [List.length_cons, Nat.mul_succ] at hroom
      rw [List.forall_mem_cons] at hnever
      obtain ⟨sys₁, hsys, rfl, hclients, hwithin'⟩ :=
        (h.inv hcores hinit).carry_step hwithin (by omega) hnever.1 hstep
      obtain ⟨sys₂, hrun, hlast, hclients'⟩ :=
        ih (h.step hsys) hwithin' (by omega) hnever.2 hlater
      rw [← List.append_assoc]
      exact ⟨sys₂, hrun, hlast, hclients'.trans hclients⟩

/-- In every run the live allocations are, each once: a stack and a TCB for
each idle thread, the blocks the thread system has a use for, and the
clients'.  In a quiescent state in which the clients have freed theirs, the
heap's block list is the one right after `percore::init`. -/
theorem run_leaks_nothing (A : Arena) (cnt : Sem → Int) (hcores : cores.Nodup)
    {mem : Mem} (hinit : percoreInit A cores mem = some (start, ptr))
    (h : SysRun A cnt start ptr past sys) :
    sys.heap.live.Perm
      ((idleBlocks cores ++ sys.machine.shared.blocks).map
        (Block.alloc sys.ptr) ++ sys.clients) ∧
    (sys.heap.live.map Alloc.ptr).Nodup ∧
    sys.machine.shared.blocks.Nodup ∧
    (∀ block, block ∈ sys.machine.shared.blocks ↔
      InUse past sys.machine block) ∧
    (Quiescent past sys.machine → sys.clients = [] →
      Heap.blocks A sys.heap.mem = Heap.blocks A start.mem) := by
  obtain ⟨hreach, hlive⟩ := percoreInit_spec hcores hinit
  have hsys := h.inv hcores hinit
  obtain ⟨segs, hinv⟩ := hsys.reach.inv
  refine ⟨hsys.live, hinv.nodup, hsys.run.blocks_nodup, hsys.run.mem_blocks, ?_⟩
  intro hquiet hclients
  exact hsys.blocks_eq hreach hlive (hsys.run.blocks_of_quiescent hquiet) hclients

end Steps

/-- After booting, the thread stops, and its core frees it and looks for the
next one. -/
def reapSchedule : List (Unit × Action Unit) :=
  bootSchedule ++ [((), .call .stop)] ++ List.replicate 9 ((), .run)

/-- Under the schedule a thread is built, dispatched and reaped, and with no
other thread the machine is quiescent. -/
theorem reapSchedule_quiescent : ∃ past m,
    follow (initial fun _ => 0) reapSchedule = some (past, m) ∧
      .create (.thread 0) ∈ past ∧ .load () (.thread 0) ∈ past ∧
      .freeTcb () (.thread 0) ∈ past ∧ Quiescent past m := by
  have hfollow : (follow (initial fun _ => 0) reapSchedule).map
      (fun r => (r.1, r.2.cores (), r.2.shared.queue .ready,
        r.2.shared.queue (.waiting ()))) =
      some ([.create (.thread 0), .link .ready (.thread 0),
          .load () (.idle ()), .unlink (.idle ()) .ready (.thread 0),
          .save () (.idle ()), .load () (.thread 0), .stop () (.thread 0),
          .save () (.thread 0), .load () (.idle ()),
          .freeStack () (.thread 0), .freeTcb () (.thread 0)],
        ⟨⟨some (.thread 0), none, none, none, none, none, some (.idle ())⟩,
          .after .toReschedule⟩, .empty, .empty) := by
    decide +kernel
  obtain ⟨⟨past, m⟩, hrun, hfields⟩ := Option.map_eq_some_iff.mp hfollow
  simp only [Prod.mk.injEq] at hfields
  obtain ⟨rfl, hcore, hready, hwaiting⟩ := hfields
  refine ⟨_, m, hrun, by decide, by decide, by decide, ?_, ?_, ?_, ?_⟩
  · rintro id ⟨hcreate, hkept⟩
    obtain rfl : id = 0 := by simpa using hcreate
    exact hkept () (by decide)
  · rintro (_ | _)
    · exact hready
    · exact hwaiting
  · intro c
    rw [hcore]
    exact ⟨rfl, rfl, rfl, rfl, rfl⟩
  · intro c id hbuilds
    rw [hcore] at hbuilds
    cases hbuilds

theorem run_leaks_nothing_reap : ∃ start ptr past sys,
    percoreInit Heap.sampleArena [()] (fun _ => 0) = some (start, ptr) ∧
    SysRun Heap.sampleArena (fun _ : Unit => 0) start ptr past sys ∧
    .create (.thread 0) ∈ past ∧ .load () (.thread 0) ∈ past ∧
    .freeTcb () (.thread 0) ∈ past ∧
    (sys.heap.live.map Alloc.ptr).Nodup ∧
    Heap.blocks Heap.sampleArena sys.heap.mem =
      Heap.blocks Heap.sampleArena start.mem := by
  obtain ⟨⟨start, ptr⟩, hinit, hwithin⟩ := percoreInit_returns
    (A := Heap.sampleArena) (show [()].length ≤ 31 by decide) fun _ => 0
  obtain ⟨past, m, hfollow, hcreate, hload, hfree, hquiet⟩ :=
    reapSchedule_quiescent
  obtain ⟨sys, hrun, rfl, hclients⟩ := SysRun.carry (List.nodup_singleton ())
    hinit .boot hwithin (by decide) (by decide) hfollow
  obtain ⟨-, hnodup, -, -, hblocks⟩ := run_leaks_nothing Heap.sampleArena
    (fun _ : Unit => 0) (List.nodup_singleton ()) hinit hrun
  exact ⟨start, ptr, past, sys, hinit, hrun, hcreate, hload, hfree, hnodup,
    hblocks hquiet hclients⟩

end Threads

end IntroOs
