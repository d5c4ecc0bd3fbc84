/-
Byte arrays of a fixed size.  An access outside the array is a fault, `none`;
the rules below turn loops of checked accesses into the pure functions they
compute when every access is in range.
-/
import IntroOs.ByteMem
import Mathlib.Data.List.GetD

namespace ByteMem

variable {size : Nat} {m : Mem}

/-- Lay the bytes of a list into a memory from `a` on. -/
def write (m : Mem) (a : Nat) (l : List UInt8) : Mem :=
  copy m a l.length (l.getD · 0)

/-- Byte `i` of an array of `size` bytes. -/
def fetch (size : Nat) (m : Mem) (i : Nat) : Option UInt8 :=
  if i < size then some (m i) else none

/-- Set byte `i` of an array of `size` bytes. -/
def put (size : Nat) (m : Mem) (i : Nat) (b : UInt8) : Option Mem :=
  if i < size then some (write m i [b]) else none

/-- The little-endian value of the `n` bytes at `a`. -/
def fetchLe (size : Nat) (m : Mem) (a : Nat) : Nat → Option Nat
  | 0 => some 0
  | n + 1 => do
      let b ← fetch size m a
      let rest ← fetchLe size m (a + 1) n
      some (b.toNat + 256 * rest)

theorem fetch_eq {i : Nat} (h : i < size) : fetch size m i = some (m i) :=
  if_pos h

theorem put_eq {i : Nat} {b : UInt8} (h : i < size) :
    put size m i b = some (write m i [b]) :=
  if_pos h

theorem fetchLe_eq {a n : Nat} (h : a + n ≤ size) :
    fetchLe size m a n = some (load m a n) := by
  induction n generalizing a with
  | zero => rfl
  | succ n ih =>
      simp only [fetchLe, fetch_eq (show a < size by omega),
        ih (show a + 1 + n ≤ size by omega), Option.bind_eq_bind,
        Option.bind_some, load]

theorem write_nil (m : Mem) (a : Nat) : write m a [] = m := by
  funext x
  simp only [write, copy, List.length_nil]
  rw [if_neg (by omega)]

/-- Two writes back to back are one. -/
theorem write_append (m : Mem) (a : Nat) (l l' : List UInt8) :
    write (write m a l) (a + l.length) l' = write m a (l ++ l') := by
  funext x
  simp only [write, copy, List.length_append]
  by_cases hback : a + l.length ≤ x ∧ x < a + l.length + l'.length
  · rw [if_pos hback, if_pos (by omega), List.getD_append_right _ _ _ _
      (by omega), show x - (a + l.length) = x - a - l.length by omega]
  · rw [if_neg hback]
    by_cases hfront : a ≤ x ∧ x < a + l.length
    · rw [if_pos hfront, if_pos (by omega),
        List.getD_append _ _ _ _ (by omega)]
    · rw [if_neg hfront, if_neg (by omega)]

theorem write_cons (m : Mem) (a : Nat) (b : UInt8) (l : List UInt8) :
    write (write m a [b]) (a + 1) l = write m a (b :: l) :=
  write_append m a [b] l

/-- What was written reads back. -/
theorem map_write (m : Mem) (a : Nat) (l : List UInt8) :
    (List.range' a l.length).map (write m a l) = l := by
  apply List.ext_getElem
  · simp
  · intro i hi hl
    simp only [List.getElem_map, List.getElem_range', Nat.one_mul, write,
      copy]
    rw [if_pos (by omega), Nat.add_sub_cancel_left,
      List.getD_eq_getElem l 0 hl]

/-- A fold over bytes that are fetched one by one. -/
theorem foldlM_fetch {β : Type*} (f : β → UInt8 → β) {off : Nat} {l : List Nat}
    (h : ∀ i ∈ l, off + i < size) (init : β) :
    l.foldlM (fun acc i => (fetch size m (off + i)).map (f acc)) init =
      some ((l.map fun i => m (off + i)).foldl f init) := by
  induction l generalizing init with
  | nil => rfl
  | cons i l ih =>
      rw [List.foldlM_cons, fetch_eq (h i List.mem_cons_self),
        List.map_cons, List.foldl_cons]
      exact ih (fun j hj => h j (List.mem_cons_of_mem i hj)) _

end ByteMem
