/-
Flat byte memory with little-endian words.  A memory is a total map from
addresses to bytes; loads and stores of a fixed width come with the rules by
which a store is seen by, or is invisible to, a later load.
-/
import Mathlib.Tactic.Common
import Mathlib.Tactic.Ring

namespace ByteMem

/-- A flat byte memory. -/
abbrev Mem := Nat → UInt8

/-- Two memories agree on the half-open address range `[lo, hi)`. -/
def EqOn (left right : Mem) (lo hi : Nat) : Prop :=
  ∀ x, lo ≤ x → x < hi → left x = right x

/-- Two memories agree everywhere outside `[lo, hi)`. -/
def EqOutside (left right : Mem) (lo hi : Nat) : Prop :=
  ∀ x, x < lo ∨ hi ≤ x → left x = right x

theorem EqOutside.trans {f g h : Mem} {lo hi : Nat}
    (hleft : EqOutside f g lo hi) (hright : EqOutside g h lo hi) :
    EqOutside f h lo hi := by
  intro x hx
  exact (hleft x hx).trans (hright x hx)

theorem EqOutside.mono {left right : Mem} {lo hi lo' hi' : Nat}
    (h : EqOutside left right lo hi) (hlo : lo' ≤ lo) (hhi : hi ≤ hi') :
    EqOutside left right lo' hi' := by
  intro x hx
  apply h
  omega

theorem EqOutside.eqOn_below {left right : Mem} {lo hi a b : Nat}
    (h : EqOutside left right lo hi) (hb : b ≤ lo) : EqOn left right a b := by
  intro x _ hx
  exact h x (Or.inl (by omega))

theorem EqOutside.eqOn_above {left right : Mem} {lo hi a b : Nat}
    (h : EqOutside left right lo hi) (ha : hi ≤ a) : EqOn left right a b := by
  intro x hx _
  exact h x (Or.inr (by omega))

theorem EqOn.mono {left right : Mem} {lo hi lo' hi' : Nat}
    (h : EqOn left right lo hi) (hlo : lo ≤ lo') (hhi : hi' ≤ hi) :
    EqOn left right lo' hi' := by
  intro x hx hx'
  exact h x (by omega) (by omega)

/-- The little-endian value of the `n` bytes at `a`. -/
def load (m : Mem) (a : Nat) : Nat → Nat
  | 0 => 0
  | n + 1 => (m a).toNat + 256 * load m (a + 1) n

/-- Store the low `n` bytes of `v` at `a`, least significant byte first. -/
def store (m : Mem) (a n v : Nat) : Mem := fun x =>
  if a ≤ x ∧ x < a + n then UInt8.ofNat (v / 256 ^ (x - a)) else m x

/-- Write the first `n` bytes of `src` at `a`. -/
def copy (m : Mem) (a n : Nat) (src : Mem) : Mem := fun x =>
  if a ≤ x ∧ x < a + n then src (x - a) else m x

theorem load_lt (m : Mem) (a n : Nat) : load m a n < 256 ^ n := by
  induction n generalizing a with
  | zero => simp [load]
  | succ n ih =>
      have hbyte : (m a).toNat < 256 := (m a).toNat_lt
      have htail := ih (a + 1)
      rw [load, Nat.pow_succ]
      omega

theorem load_congr {left right : Mem} {a n : Nat}
    (h : EqOn left right a (a + n)) : load left a n = load right a n := by
  induction n generalizing a with
  | zero => rfl
  | succ n ih =>
      rw [load, load, h a (Nat.le_refl a) (by omega),
        ih (h.mono (by omega) (by omega))]

theorem load_shift (m : Mem) (a b n : Nat) :
    load (fun k => m (a + k)) b n = load m (a + b) n := by
  induction n generalizing b with
  | zero => rfl
  | succ n ih => rw [load, load, ih, Nat.add_assoc]

theorem store_eqOutside (m : Mem) (a n v : Nat) :
    EqOutside (store m a n v) m a (a + n) := by
  intro x hx
  simp only [store]
  rw [if_neg (by omega)]

/-- A load sees a store through the bytes it covers: the suffix of the stored
word starting at byte `k`. -/
theorem load_store_suffix (m : Mem) (a v k n : Nat) :
    load (store m a (k + n) v) (a + k) n = v / 256 ^ k % 256 ^ n := by
  induction n generalizing k with
  | zero => simp [load, Nat.mod_one]
  | succ n ih =>
      have hhead : (store m a (k + (n + 1)) v (a + k)).toNat =
          v / 256 ^ k % 256 := by
        simp [store]
      have htail := ih (k + 1)
      rw [load, hhead, show k + (n + 1) = k + 1 + n by omega,
        show a + k + 1 = a + (k + 1) by omega, htail, Nat.pow_succ,
        ← Nat.div_div_eq_div_mul, Nat.pow_succ, Nat.mul_comm (256 ^ n) 256,
        Nat.mod_mul]

theorem load_store_same (m : Mem) (a n v : Nat) (hv : v < 256 ^ n) :
    load (store m a n v) a n = v := by
  have h := load_store_suffix m a v 0 n
  simp only [Nat.zero_add, Nat.add_zero, Nat.pow_zero, Nat.div_one] at h
  rw [h, Nat.mod_eq_of_lt hv]

theorem load_eq_of_eqOutside {left right : Mem} {lo hi a n : Nat}
    (h : EqOutside left right lo hi) (hsep : a + n ≤ lo ∨ hi ≤ a) :
    load left a n = load right a n := by
  rcases hsep with hbelow | habove
  · exact load_congr (h.eqOn_below hbelow)
  · exact load_congr (h.eqOn_above habove)

theorem load_store_disjoint (m : Mem) {a n b k : Nat} (v : Nat)
    (hsep : b + k ≤ a ∨ a + n ≤ b) :
    load (store m a n v) b k = load m b k :=
  load_eq_of_eqOutside (store_eqOutside m a n v) hsep

theorem copy_eqOutside (m : Mem) (a n : Nat) (src : Mem) :
    EqOutside (copy m a n src) m a (a + n) := by
  intro x hx
  simp only [copy]
  rw [if_neg (by omega)]

theorem copy_apply (m : Mem) (a : Nat) {n i : Nat} (src : Mem) (h : i < n) :
    copy m a n src (a + i) = src i := by
  simp only [copy]
  rw [if_pos (by omega), Nat.add_sub_cancel_left]

end ByteMem
