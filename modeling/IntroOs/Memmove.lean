/-
`memcpy` and `memmove`: the loops of the kernel's string routines on one flat
memory that holds both ranges.  Both directions of the move keep one loop
invariant, in which the indices already done are an interval, and both arrive
at the same block copy from the memory the call began with.
-/
import IntroOs.ByteMem

namespace IntroOs

open ByteMem

namespace Memmove

/-- The address of `p[i]`; pointers are 64 bits wide. -/
def addr (p i : Nat) : Nat := (p + i) % 2 ^ 64

/-- `d[i] = s[i]`. -/
def moveByte (dst src i : Nat) (m : Mem) : Mem := fun x =>
  if x = addr dst i then m (addr src i) else m x

/-- The memory after `n` rounds of `for (i = 0; i < n; i++) d[i] = s[i]`. -/
def forward (dst src : Nat) : Nat → Mem → Mem
  | 0, m => m
  | n + 1, m => moveByte dst src n (forward dst src n m)

/-- `for (i = n; i > 0; i--) d[i - 1] = s[i - 1]`. -/
def backward (dst src : Nat) : Nat → Mem → Mem
  | 0, m => m
  | n + 1, m => backward dst src n (moveByte dst src n m)

/-- `memcpy`: the pointer returned, and the memory behind the call. -/
def memcpy (m : Mem) (dst src n : Nat) : Nat × Mem :=
  (dst, forward dst src n m)

/-- `memmove`. -/
def memmove (m : Mem) (dst src n : Nat) : Nat × Mem :=
  (dst,
    if dst < src then forward dst src n m
    else if dst > src then backward dst src n m
    else m)

theorem addr_eq {p i : Nat} (h : p + i < 2 ^ 64) : addr p i = p + i :=
  Nat.mod_eq_of_lt h

/-- The loop invariant of both directions: the bytes with indices from `lo` to
`hi` have arrived from the memory `m₀`, and nothing else has changed.  It says
nothing about the source, part of which may be overwritten. -/
structure Moved (dst src lo hi : Nat) (m₀ m : Mem) : Prop where
  moved : ∀ i, lo ≤ i → i < hi → m (dst + i) = m₀ (src + i)
  kept : EqOutside m m₀ (dst + lo) (dst + hi)

section Loops

variable {dst src lo hi n : Nat} {m₀ m : Mem}

theorem Moved.empty (m : Mem) : Moved dst src lo lo m m where
  moved := by
    intro i hlo hhi
    omega
  kept := fun _ _ => rfl

/-- One more byte at the upper end.  Its source is still untouched if the
move goes down, or if the bytes already written are clear of it. -/
theorem Moved.push_up (h : Moved dst src 0 n m₀ m)
    (hdst : dst + n < 2 ^ 64) (hsrc : src + n < 2 ^ 64)
    (hsafe : dst ≤ src ∨ src + n < dst) :
    Moved dst src 0 (n + 1) m₀ (moveByte dst src n m) where
  moved := by
    intro i _ hi
    simp only [moveByte, addr_eq hdst, addr_eq hsrc]
    split
    · rename_i hlast
      -- the source byte is outside of what has been written
      rw [h.kept (src + n) (by omega), show i = n by omega]
    · rename_i hlast
      exact h.moved i (by omega) (by omega)
  kept := by
    intro x hx
    simp only [moveByte, addr_eq hdst]
    rw [if_neg (by omega)]
    exact h.kept x (by omega)

/-- One more byte at the lower end, for a move that goes up. -/
theorem Moved.push_down (h : Moved dst src (n + 1) hi m₀ m)
    (hhi : n < hi) (hdst : dst + n < 2 ^ 64) (hsrc : src + n < 2 ^ 64)
    (hsafe : src ≤ dst) :
    Moved dst src n hi m₀ (moveByte dst src n m) where
  moved := by
    intro i hlo hi
    simp only [moveByte, addr_eq hdst, addr_eq hsrc]
    split
    · rename_i hfirst
      rw [h.kept (src + n) (by omega), show i = n by omega]
    · rename_i hfirst
      exact h.moved i (by omega) (by omega)
  kept := by
    intro x hx
    simp only [moveByte, addr_eq hdst]
    rw [if_neg (by omega)]
    exact h.kept x (by omega)

theorem forward_moved (hdst : dst + n ≤ 2 ^ 64) (hsrc : src + n ≤ 2 ^ 64)
    (hsafe : dst ≤ src ∨ src + n ≤ dst) :
    Moved dst src 0 n m (forward dst src n m) := by
  induction n with
  | zero => exact Moved.empty m
  | succ n ih =>
      have hrounds := ih (by omega) (by omega) (by omega)
      exact hrounds.push_up (by omega) (by omega) (by omega)

/-- The rounds left of the downward loop complete what the first ones have
begun. -/
theorem backward_moved (h : Moved dst src n hi m₀ m) (hn : n ≤ hi)
    (hdst : dst + n ≤ 2 ^ 64) (hsrc : src + n ≤ 2 ^ 64)
    (hsafe : src ≤ dst) :
    Moved dst src 0 hi m₀ (backward dst src n m) := by
  induction n generalizing m with
  | zero => exact h
  | succ n ih =>
      have hround := h.push_down (by omega) (by omega) (by omega) hsafe
      exact ih hround (by omega) (by omega) (by omega)

/-- The invariant at the end of a loop determines the memory. -/
theorem Moved.eq_copy (h : Moved dst src 0 n m₀ m) :
    m = copy m₀ dst n fun i => m₀ (src + i) := by
  funext x
  simp only [copy]
  split
  · rename_i hx
    have hmoved := h.moved (x - dst) (by omega) (by omega)
    rwa [show dst + (x - dst) = x by omega] at hmoved
  · rename_i hx
    exact h.kept x (by omega)

/-- `memcpy` is the block copy, unless it runs into its own source. -/
theorem memcpy_eq_copy (m : Mem) (hdst : dst + n ≤ 2 ^ 64)
    (hsrc : src + n ≤ 2 ^ 64) (hsafe : dst ≤ src ∨ src + n ≤ dst) :
    memcpy m dst src n = (dst, copy m dst n fun i => m (src + i)) := by
  rw [memcpy, (forward_moved hdst hsrc hsafe).eq_copy]

theorem memmove_eq_copy (m : Mem) (hdst : dst + n ≤ 2 ^ 64)
    (hsrc : src + n ≤ 2 ^ 64) :
    memmove m dst src n = (dst, copy m dst n fun i => m (src + i)) := by
  -- the branches of the source
  rw [memmove]
  rcases Nat.lt_trichotomy dst src with hlt | heq | hgt
  · rw [if_pos hlt,
      (forward_moved hdst hsrc (Or.inl (Nat.le_of_lt hlt))).eq_copy]
  · subst heq
    have hself : copy m dst n (fun i => m (dst + i)) = m := by
      funext x
      simp only [copy]
      split
      · rw [show dst + (x - dst) = x by omega]
      · rfl
    simp only [Nat.lt_irrefl, if_false, gt_iff_lt, hself]
  · have hnone : Moved dst src n n m m := Moved.empty m
    have hdone := backward_moved hnone (Nat.le_refl n) hdst hsrc
      (Nat.le_of_lt hgt)
    rw [if_neg (by omega), if_pos hgt, hdone.eq_copy]

end Loops

/-- `memmove` moves the source's original bytes whatever the overlap and
touches nothing else, and `memcpy` does the same between disjoint ranges. -/
theorem memmove_correct (m : Mem) (dst src n : Nat)
    (hdst : dst + n ≤ 2 ^ 64) (hsrc : src + n ≤ 2 ^ 64) :
    (∀ i, i < n → (memmove m dst src n).2 (dst + i) = m (src + i)) ∧
    (∀ x, x < dst ∨ dst + n ≤ x → (memmove m dst src n).2 x = m x) ∧
    (dst + n ≤ src ∨ src + n ≤ dst →
      (memcpy m dst src n).2 = (memmove m dst src n).2) := by
  rw [memmove_eq_copy m hdst hsrc]
  refine ⟨?_, ?_, ?_⟩
  · intro i hi
    simp only [copy]
    rw [if_pos (by omega), Nat.add_sub_cancel_left]
  · intro x hx
    simp only [copy]
    rw [if_neg (by omega)]
  · intro hdisjoint
    rw [memcpy_eq_copy m hdst hsrc (by omega)]

/-- Five bytes moved up by two, over the end of their own source. -/
theorem memmove_correct_overlap :
    (memmove (fun x => UInt8.ofNat x) 102 100 5).2 106 = 104 := by
  have h := (memmove_correct (fun x => UInt8.ofNat x) 102 100 5
    (by decide) (by decide)).1 4 (by decide)
  exact h

end Memmove

end IntroOs
