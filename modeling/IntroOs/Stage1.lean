/-
Stage 1 address translation of AArch64: the walk from `TTBR0_EL1` for the
lower half of the address space, with the 4 KiB granule.
-/
import Mathlib.Data.BitVec
import Mathlib.Tactic.Common

namespace Stage1

abbrev Word := BitVec 64

/-- The bits from `lo` on, `len` of them. -/
def field (w : Word) (lo len : Nat) : Nat := w.toNat / 2 ^ lo % 2 ^ len

/-- The registers of one core that control the walk. -/
structure Regs where
  mair : Word
  tcr : Word
  ttbr0 : Word
deriving DecidableEq

/-- What an address is mapped to: the physical address, the memory attributes
in `MAIR_EL1`, the access permissions, the shareability, and whether execution
is forbidden at EL1 and at EL0. -/
structure Mapping where
  pa : Nat
  attr : Nat
  ap : Nat
  sh : Nat
  pxn : Bool
  uxn : Bool
deriving DecidableEq, Repr

/-- How many bits of a physical address there are: `IPS`.  With `DS` clear the
granule of 4 KiB never has more than 48. -/
def outputBits (r : Regs) : Nat :=
  match field r.tcr 32 3 with
  | 0 => 32
  | 1 => 36
  | 2 => 40
  | 3 => 42
  | 4 => 44
  | _ => 48

/-- An address as the walk sees it: `TBI0` has the top byte ignored. -/
def untagged (r : Regs) (va : Nat) : Nat :=
  if field r.tcr 37 1 = 1 then va % 2 ^ 56 else va

/-- A block or page descriptor, for an address with `low` bits below the
block.  The access faults without the access flag, where the hardware does not
set it (`HA`), and when the block is beyond the physical addresses. -/
def leaf (r : Regs) (desc : Word) (low va : Nat) : Option Mapping :=
  let base := field desc low (48 - low) * 2 ^ low
  if (field desc 10 1 = 1 ∨ field r.tcr 39 1 = 1) ∧ base < 2 ^ outputBits r then
    some {
      pa := base + va % 2 ^ low
      attr := field r.mair (8 * field desc 2 3) 8
      ap := field desc 6 2
      sh := field desc 8 2
      pxn := field desc 53 1 = 1
      uxn := field desc 54 1 = 1 }
  else none

/-- The walk through a table with `n` levels below it.  Blocks are for the two
levels above the pages only, and a table beyond the physical addresses is a
fault. -/
def walk (r : Regs) (mem : Nat → Word) (va : Nat) : Nat → Nat → Option Mapping
  | 0, base =>
      let desc := mem (base + 8 * (va / 2 ^ 12 % 512))
      if field desc 0 2 = 3 then leaf r desc 12 va else none
  | n + 1, base =>
      let low := 12 + 9 * (n + 1)
      let desc := mem (base + 8 * (va / 2 ^ low % 512))
      let next := field desc 12 36 * 2 ^ 12
      if field desc 0 2 = 3 then
        if next < 2 ^ outputBits r then walk r mem va n next else none
      else if field desc 0 2 = 1 ∧ n + 1 ≤ 2 then leaf r desc low va
      else none

/-- The translation of an address of the lower half; `none` is a fault.  Only
the granule of 4 KiB is described, and only the descriptors that there are
with `DS` clear. -/
def translate (r : Regs) (mem : Nat → Word) (va : Nat) : Option Mapping :=
  let t0sz := field r.tcr 0 6
  let bits := 64 - t0sz
  let levels := (bits - 13) / 9
  let align := bits - (12 + 9 * levels) + 3
  let base := field r.ttbr0 align (48 - align) * 2 ^ align
  if t0sz < 16 ∨ 39 < t0sz ∨ field r.tcr 7 1 = 1 ∨ field r.tcr 14 2 ≠ 0 ∨
      field r.tcr 59 1 = 1 ∨ 2 ^ bits ≤ untagged r va ∨
      2 ^ outputBits r ≤ base then none
  else walk r mem (untagged r va) levels base

theorem testBit_field (w : Word) (lo len i : Nat) :
    (field w lo len).testBit i = (decide (i < len) && w.getLsbD (lo + i)) := by
  rw [field, Nat.testBit_mod_two_pow, Nat.testBit_div_two_pow,
    ← BitVec.getLsbD, Nat.add_comm i lo]

/-- Fields are equal when their bits are. -/
theorem field_congr {w w' : Word} {lo len : Nat}
    (h : ∀ i < len, w.getLsbD (lo + i) = w'.getLsbD (lo + i)) :
    field w lo len = field w' lo len := by
  refine Nat.eq_of_testBit_eq fun i => ?_
  rw [testBit_field, testBit_field]
  by_cases hi : i < len
  · rw [h i hi]
  · simp [hi]

theorem field_mul_two_pow {n lo len : Nat} (hlt : n < 2 ^ (lo + len))
    (hdvd : 2 ^ lo ∣ n) (hlen : lo + len ≤ 64) :
    field (BitVec.ofNat 64 n) lo len * 2 ^ lo = n := by
  have hword : n < 2 ^ 64 :=
    lt_of_lt_of_le hlt (Nat.pow_le_pow_right (by decide) hlen)
  have hdiv : n / 2 ^ lo < 2 ^ len := by
    rw [Nat.div_lt_iff_lt_mul (Nat.two_pow_pos lo), ← Nat.pow_add,
      Nat.add_comm]
    exact hlt
  rw [field, BitVec.toNat_ofNat, Nat.mod_eq_of_lt hword, Nat.mod_eq_of_lt hdiv,
    Nat.div_mul_cancel hdvd]

/-- The walk of a 39-bit address space starts at a table of 1 GiB entries. -/
theorem translate_39 {r : Regs} (mem : Nat → Word) (va : Nat)
    (hsize : field r.tcr 0 6 = 25) (hwalks : field r.tcr 7 1 = 0)
    (hgranule : field r.tcr 14 2 = 0) (hshort : field r.tcr 59 1 = 0)
    (hbase : field r.ttbr0 12 36 * 2 ^ 12 < 2 ^ outputBits r) :
    translate r mem va =
      if untagged r va < 2 ^ 39 then
        walk r mem (untagged r va) 2 (field r.ttbr0 12 36 * 2 ^ 12)
      else none := by
  simp only [translate, hsize, hwalks, hgranule, hshort]
  by_cases hlow : untagged r va < 2 ^ 39
  · rw [if_pos hlow, if_neg]
    simpa using ⟨hlow, hbase⟩
  · rw [if_neg hlow, if_pos]
    exact .inr (.inr (.inr (.inr (.inr (.inl (Nat.not_lt.mp hlow))))))

end Stage1
