/-
A first-in first-out queue as a singly linked list with a head and a tail
pointer, over a memory of cells that several queues share.
-/
import Mathlib.Data.List.Nodup
import Mathlib.Logic.Function.Basic

namespace LinkedQueue

variable {Node Value : Type}

structure Cell (Node Value : Type) where
  value : Value
  next : Option Node
deriving DecidableEq

structure Queue (Node : Type) where
  head : Option Node
  tail : Option Node
deriving DecidableEq

abbrev Cells (Node Value : Type) := Node → Cell Node Value

def Queue.empty : Queue Node := ⟨none, none⟩

/-- The cells after appending `node`, whose own link is null already. -/
def link [DecidableEq Node] (cells : Cells Node Value) (q : Queue Node)
    (node : Node) : Cells Node Value × Queue Node :=
  match q.tail with
  | none => (cells, ⟨some node, some node⟩)
  | some last =>
      (Function.update cells last { cells last with next := some node },
        ⟨q.head, some node⟩)

/-- Takes the first node off, if there is one. -/
def unlink (cells : Cells Node Value) (q : Queue Node) :
    Option (Node × Queue Node) :=
  match q.head with
  | none => none
  | some node =>
      let next := (cells node).next
      some (node, ⟨next, if next.isNone then none else q.tail⟩)

/-- Following the links from `start` visits exactly `nodes`. -/
def Chain (cells : Cells Node Value) : Option Node → List Node → Prop
  | start, [] => start = none
  | start, node :: rest =>
      start = some node ∧ Chain cells (cells node).next rest

/-- `nodes` are the nodes of the queue, front first. -/
structure Linked (cells : Cells Node Value) (q : Queue Node)
    (nodes : List Node) : Prop where
  chain : Chain cells q.head nodes
  tail : q.tail = nodes.getLast?
  nodup : nodes.Nodup

theorem linked_empty (cells : Cells Node Value) :
    Linked cells Queue.empty [] :=
  ⟨rfl, rfl, List.nodup_nil⟩

theorem Linked.eq_empty {cells : Cells Node Value} {q : Queue Node}
    (h : Linked cells q []) : q = .empty := by
  obtain ⟨head, tail⟩ := q
  have hhead : head = none := h.chain
  have htail : tail = none := h.tail
  rw [hhead, htail]
  rfl

theorem Linked.head_eq_none_iff {cells : Cells Node Value} {q : Queue Node}
    {nodes : List Node} (h : Linked cells q nodes) :
    q.head = none ↔ nodes = [] := by
  cases nodes with
  | nil => exact ⟨fun _ => rfl, fun _ => h.chain⟩
  | cons node rest => simp [h.chain.1]

theorem Linked.tail_eq_none_iff {cells : Cells Node Value} {q : Queue Node}
    {nodes : List Node} (h : Linked cells q nodes) :
    q.tail = none ↔ nodes = [] := by
  rw [h.tail, List.getLast?_eq_none_iff]

theorem Chain.congr {cells cells' : Cells Node Value} {start : Option Node}
    {nodes : List Node} (h : Chain cells start nodes)
    (hsame : ∀ node ∈ nodes, cells' node = cells node) :
    Chain cells' start nodes := by
  induction nodes generalizing start with
  | nil => exact h
  | cons node rest ih =>
      refine ⟨h.1, ?_⟩
      rw [hsame node List.mem_cons_self]
      exact ih h.2 fun other hother => hsame other (List.mem_cons_of_mem _ hother)

theorem Linked.congr {cells cells' : Cells Node Value} {q : Queue Node}
    {nodes : List Node} (h : Linked cells q nodes)
    (hsame : ∀ node ∈ nodes, cells' node = cells node) :
    Linked cells' q nodes :=
  ⟨h.chain.congr hsame, h.tail, h.nodup⟩

/-- A queue has only one list of nodes. -/
theorem Linked.unique {cells : Cells Node Value} {q : Queue Node}
    {nodes nodes' : List Node} (h : Linked cells q nodes)
    (h' : Linked cells q nodes') : nodes = nodes' := by
  have hchain : ∀ {start : Option Node} {xs ys : List Node},
      Chain cells start xs → Chain cells start ys → xs = ys := by
    intro start xs
    induction xs generalizing start with
    | nil =>
        intro ys hxs hys
        cases ys with
        | nil => rfl
        | cons y ys =>
            have heq := hxs.symm.trans hys.1
            cases heq
    | cons x xs ih =>
        intro ys hxs hys
        cases ys with
        | nil =>
            have heq := hxs.1.symm.trans hys
            cases heq
        | cons y ys =>
            have heq := Option.some.inj (hxs.1.symm.trans hys.1)
            subst heq
            rw [ih hxs.2 hys.2]
  exact hchain h.chain h'.chain

section Link

variable [DecidableEq Node]

theorem Chain.append {cells : Cells Node Value} {start : Option Node}
    {init : List Node} {last node : Node}
    (h : Chain cells start (init ++ [last]))
    (hnodup : (init ++ [last]).Nodup) (hnew : node ∉ init ++ [last])
    (hnext : (cells node).next = none) :
    Chain (Function.update cells last { cells last with next := some node })
      start (init ++ [last] ++ [node]) := by
  induction init generalizing start with
  | nil =>
      have hne : node ≠ last := fun heq => hnew (by simp [heq])
      refine ⟨h.1, ?_, ?_⟩
      · simp
      · rw [Function.update_of_ne hne]
        exact hnext
  | cons first rest ih =>
      have hne : first ≠ last := by
        intro heq
        simp [heq] at hnodup
      refine ⟨h.1, ?_⟩
      rw [Function.update_of_ne hne]
      exact ih h.2 (List.Nodup.of_cons hnodup)
        fun hmem => hnew (List.mem_cons_of_mem _ hmem)

/-- Only the last cell of the queue is written. -/
theorem link_cells_of_ne {cells : Cells Node Value} {q : Queue Node}
    {nodes : List Node} (h : Linked cells q nodes) {node other : Node}
    (hother : other ∉ nodes) : (link cells q node).1 other = cells other := by
  unfold link
  cases htail : q.tail with
  | none => rfl
  | some last =>
      have hlast : last ∈ nodes := List.mem_of_getLast? (h.tail ▸ htail)
      have hne : other ≠ last := fun heq => hother (heq ▸ hlast)
      simp only [Function.update_of_ne hne]

theorem link_value (cells : Cells Node Value) (q : Queue Node)
    (node other : Node) :
    ((link cells q node).1 other).value = (cells other).value := by
  unfold link
  cases q.tail with
  | none => rfl
  | some last =>
      by_cases heq : other = last
      · rw [heq]
        simp
      · simp [heq]

/-- Linking appends the node. -/
theorem Linked.link {cells : Cells Node Value} {q : Queue Node}
    {nodes : List Node} (h : Linked cells q nodes) {node : Node}
    (hnew : node ∉ nodes) (hnext : (cells node).next = none) :
    Linked (LinkedQueue.link cells q node).1 (LinkedQueue.link cells q node).2
      (nodes ++ [node]) := by
  unfold LinkedQueue.link
  rcases List.eq_nil_or_concat' nodes with rfl | ⟨init, last, rfl⟩
  · have htail : q.tail = none := h.tail
    rw [htail]
    exact ⟨⟨rfl, hnext⟩, rfl, List.nodup_singleton node⟩
  · have htail : q.tail = some last := by simpa using h.tail
    rw [htail]
    refine ⟨h.chain.append h.nodup hnew hnext, by simp, ?_⟩
    exact List.Nodup.append h.nodup (List.nodup_singleton node)
      (by simpa using hnew)

end Link

theorem unlink_nil {cells : Cells Node Value} {q : Queue Node}
    (h : Linked cells q []) : unlink cells q = none := by
  have hhead : q.head = none := h.chain
  simp only [unlink, hhead]

/-- Unlinking takes the first node and leaves the rest. -/
theorem Linked.unlink {cells : Cells Node Value} {q : Queue Node}
    {node : Node} {rest : List Node} (h : Linked cells q (node :: rest)) :
    ∃ q', LinkedQueue.unlink cells q = some (node, q') ∧
      Linked cells q' rest := by
  have hhead : q.head = some node := h.chain.1
  simp only [LinkedQueue.unlink, hhead]
  refine ⟨_, rfl, h.chain.2, ?_, h.nodup.of_cons⟩
  cases rest with
  | nil =>
      have hnext : (cells node).next = none := h.chain.2
      simp [hnext]
  | cons second rest =>
      have hnext : (cells node).next = some second := h.chain.2.1
      have htail := h.tail
      simp only [hnext, Option.isNone_some, Bool.false_eq_true, ↓reduceIte]
      rw [htail, List.getLast?_cons_cons]

theorem unlink_eq_none_iff {cells : Cells Node Value} {q : Queue Node}
    {nodes : List Node} (h : Linked cells q nodes) :
    unlink cells q = none ↔ nodes = [] := by
  cases nodes with
  | nil => simp [unlink_nil h]
  | cons node rest =>
      obtain ⟨q', hq, -⟩ := h.unlink
      simp [hq]

end LinkedQueue
