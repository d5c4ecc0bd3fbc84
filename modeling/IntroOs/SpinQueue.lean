/-
`SpinQueue` under any concurrency: `push`, `pop` and `empty` as interleaved
steps of any number of threads.  A section under `lock_` is one step; `push`
allocates its node before it, `pop` reads and deletes its node behind it.
-/
import IntroOs.History
import IntroOs.LinkedQueue

namespace IntroOs

namespace SpinQueue

open LinkedQueue (Queue Cell Cells Linked)

/-- The member functions, with their argument. -/
inductive Call (Value Loc : Type) where
  | push (value : Value)
  | pop (out : Loc)
  | empty
deriving DecidableEq

/-- Where a thread is: in its own code, before the `new` of `push`, spinning
on `lock_` (`…Wait`), behind it (`…Hold`), at the two statements of `pop` that
follow its section, or about to return. -/
inductive Ctl (Node Value Loc : Type) where
  | client
  | pushNew (value : Value)
  | pushWait (node : Node) (value : Value)
  | pushHold (node : Node) (value : Value)
  | popWait (out : Loc)
  | popHold (out : Loc)
  | popRead (node : Node) (out : Loc)
  | popDelete (node : Node)
  | emptyWait
  | emptyHold
  | returns (result : Option Bool)
  | outOfMemory
deriving DecidableEq

/-- What a thread does that others can see.  `link`, `unlink`, `miss` and
`look` are the sections of `push`, of a `pop` that finds a node, of one that
does not, and of `empty`; `write` is `*out = node->value`, and `store` an
assignment of the thread's own code. -/
inductive Act (Node Value Loc : Type) where
  | call (op : Call Value Loc)
  | new (node : Node)
  | link (node : Node) (value : Value)
  | unlink (node : Node) (value : Value)
  | miss
  | look (isEmpty : Bool)
  | write (out : Loc) (value : Value)
  | delete (node : Node)
  | returns (result : Option Bool)
  | store (x : Loc) (value : Value)
deriving DecidableEq

/-- The queue, the heap cells of its nodes, which of them are allocated, the
variables that `out` may point to, and the threads. -/
structure State (Thread Node Value Loc : Type) where
  locked : Bool
  queue : Queue Node
  cells : Cells Node Value
  allocated : Node → Bool
  mem : Loc → Value
  ctl : Thread → Ctl Node Value Loc

variable {Thread Node Value Loc : Type}

def initial (cells : Cells Node Value) (mem : Loc → Value) :
    State Thread Node Value Loc :=
  ⟨false, .empty, cells, fun _ => false, mem, fun _ => .client⟩

def Call.entry : Call Value Loc → Ctl Node Value Loc
  | .push value => .pushNew value
  | .pop out => .popWait out
  | .empty => .emptyWait

/-- What is not up to the code: which function a thread calls or which
variable it assigns to, and the node that `new` returns, if any. -/
inductive Choice (Node Value Loc : Type) where
  | run
  | call (op : Call Value Loc)
  | store (x : Loc) (value : Value)
  | new (node : Option Node)

section Steps

variable [DecidableEq Thread] [DecidableEq Node] [DecidableEq Loc]

abbrev Result (Thread Node Value Loc : Type) :=
  Option (Option (Act Node Value Loc) × State Thread Node Value Loc)

def State.goto (s : State Thread Node Value Loc) (t : Thread)
    (ctl : Ctl Node Value Loc) : State Thread Node Value Loc :=
  { s with ctl := Function.update s.ctl t ctl }

section Goto

variable (s : State Thread Node Value Loc) (t : Thread)
  (ctl : Ctl Node Value Loc)

omit [DecidableEq Node] [DecidableEq Loc]

@[simp] theorem State.goto_queue : (s.goto t ctl).queue = s.queue := rfl

@[simp] theorem State.goto_cells : (s.goto t ctl).cells = s.cells := rfl

@[simp] theorem State.goto_allocated :
    (s.goto t ctl).allocated = s.allocated := rfl

@[simp] theorem State.goto_mem : (s.goto t ctl).mem = s.mem := rfl

@[simp] theorem State.goto_ctl :
    (s.goto t ctl).ctl = Function.update s.ctl t ctl := rfl

end Goto

/-- `lock_.lock()`, which goes through when the lock is free. -/
def acquire (s : State Thread Node Value Loc) (t : Thread)
    (ctl : Ctl Node Value Loc) : Result Thread Node Value Loc :=
  if s.locked then none else some (none, { s with locked := true }.goto t ctl)

def run (t : Thread) (s : State Thread Node Value Loc) :
    Result Thread Node Value Loc :=
  match s.ctl t with
  | .pushWait node value => acquire s t (.pushHold node value)
  | .pushHold node value =>
      let linked := LinkedQueue.link s.cells s.queue node
      some (some (.link node value),
        { s with locked := false, cells := linked.1, queue := linked.2 }.goto t
          (.returns none))
  | .popWait out => acquire s t (.popHold out)
  | .popHold out =>
      match LinkedQueue.unlink s.cells s.queue with
      | none =>
          some (some .miss,
            { s with locked := false }.goto t (.returns (some false)))
      | some (node, queue) =>
          some (some (.unlink node (s.cells node).value),
            { s with locked := false, queue := queue }.goto t
              (.popRead node out))
  | .popRead node out =>
      let value := (s.cells node).value
      some (some (.write out value),
        { s with mem := Function.update s.mem out value }.goto t
          (.popDelete node))
  | .popDelete node =>
      some (some (.delete node),
        { s with allocated := Function.update s.allocated node false }.goto t
          (.returns (some true)))
  | .emptyWait => acquire s t .emptyHold
  | .emptyHold =>
      let isEmpty := s.queue.head.isNone
      some (some (.look isEmpty),
        { s with locked := false }.goto t (.returns (some isEmpty)))
  | .returns result => some (some (.returns result), s.goto t .client)
  | .client | .pushNew _ | .outOfMemory => none

/-- `new Node{value, nullptr}`: any node that is not in use. -/
def new (t : Thread) (value : Value) (s : State Thread Node Value Loc) :
    Option Node → Result Thread Node Value Loc
  | none => some (none, s.goto t .outOfMemory)
  | some node =>
      if s.allocated node then none
      else
        some (some (.new node),
          { s with
            allocated := Function.update s.allocated node true
            cells := Function.update s.cells node ⟨value, none⟩ }.goto t
              (.pushWait node value))

def step (t : Thread) (s : State Thread Node Value Loc) :
    Choice Node Value Loc → Result Thread Node Value Loc
  | .run => run t s
  | .call op =>
      match s.ctl t with
      | .client => some (some (.call op), s.goto t op.entry)
      | _ => none
  | .store x value =>
      match s.ctl t with
      | .client =>
          some (some (.store x value),
            { s with mem := Function.update s.mem x value }.goto t .client)
      | _ => none
  | .new node =>
      match s.ctl t with
      | .pushNew value => new t value s node
      | _ => none

/-- The runs from an empty queue, with what was done in them.  Cells that are
not allocated belong to somebody else and may change at any time. -/
inductive Run (mem : Loc → Value) :
    List (Thread × Act Node Value Loc) → State Thread Node Value Loc → Prop
  | start (cells : Cells Node Value) : Run mem [] (initial cells mem)
  | step {past : List (Thread × Act Node Value Loc)}
      {s s' : State Thread Node Value Loc} {t : Thread}
      {choice : Choice Node Value Loc} {act : Option (Act Node Value Loc)}
      (before : Run mem past s) (step : step t s choice = some (act, s')) :
      Run mem (past ++ (act.map (Prod.mk t)).toList) s'
  | reuse {past : List (Thread × Act Node Value Loc)}
      {s : State Thread Node Value Loc} {node : Node}
      (before : Run mem past s) (unused : s.allocated node = false)
      (cell : Cell Node Value) :
      Run mem past { s with cells := Function.update s.cells node cell }

end Steps

end SpinQueue

end IntroOs
