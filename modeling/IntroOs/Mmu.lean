/-
The kernel's own translation table: one gigabyte of device memory, mapped to
itself, that every core walks from its `TTBR0_EL1` once it has run
`activate_this_core`.
-/
import IntroOs.Stage1

namespace IntroOs

namespace Mmu

open Stage1

/-- Where the bootloader has put the image: it is mapped from `virtualBase` on
to the physical memory from `physicalBase` on, by whole pages. -/
structure Image where
  physicalBase : Nat
  virtualBase : Nat
  size : Nat
  physical_aligned : physicalBase % 4096 = 0
  virtual_aligned : virtualBase % 4096 = 0
  physical_fits : physicalBase + size ≤ 2 ^ 48
  virtual_fits : virtualBase + size ≤ 2 ^ 64

/-- The physical address behind an address of the image. -/
def Image.phys (I : Image) (va : Nat) : Nat :=
  va - I.virtualBase + I.physicalBase

def Image.Contains (I : Image) (va len : Nat) : Prop :=
  I.virtualBase ≤ va ∧ va + len ≤ I.virtualBase + I.size

/-- What the bootloader leaves in `TCR_EL1` on a core: the descriptors are the
ones for addresses of 48 bits (`DS`), and the physical addresses (`IPS`) reach
the image. -/
structure Image.Reached (I : Image) (r : Regs) : Prop where
  short : field r.tcr 59 1 = 0
  reaches : I.physicalBase + I.size ≤ 2 ^ outputBits r

def kDeviceAttrIndex : Nat := 2

def kMairDeviceNGnRnE : Word := 0x00

def kDescValidBlock : Word := 0b01

def kAttrIndx : Word := BitVec.ofNat 64 kDeviceAttrIndex <<< 2

def kApEl1Rw : Word := 0b00 <<< 6

def kShOuter : Word := 0b10 <<< 8

def kAf : Word := 1 <<< 10

def kPxn : Word := 1 <<< 53

def kUxn : Word := 1 <<< 54

/-- The variables of `mmu.cpp` next to its table. -/
structure Globals where
  l1TablePhys : Nat
  imagePhysOffset : Nat
deriving DecidableEq, Repr

/-- Difference and sum of `uint64_t` values. -/
def sub64 (a b : Nat) : Nat := (a + (2 ^ 64 - b % 2 ^ 64)) % 2 ^ 64

def add64 (a b : Nat) : Nat := (a + b) % 2 ^ 64

/-- `g_l1_table[0]` as `init` stores it. -/
def blockDescriptor : Word :=
  kDescValidBlock ||| kAttrIndx ||| kApEl1Rw ||| kShOuter ||| kAf ||| kPxn |||
    kUxn

/-- `mmu::init`, with `g_l1_table` at the address `table` of the image. -/
def init (I : Image) (table : Nat) (mem : Nat → Word) :
    Globals × (Nat → Word) :=
  (⟨add64 (sub64 table I.virtualBase) I.physicalBase,
      sub64 I.physicalBase I.virtualBase⟩,
    Function.update mem (I.phys table) blockDescriptor)

/-- `mmu::activate_this_core`. -/
def activateThisCore (g : Globals) (r : Regs) : Regs where
  mair := r.mair &&& ~~~((0xFF : Word) <<< (kDeviceAttrIndex * 8)) |||
    kMairDeviceNGnRnE <<< (kDeviceAttrIndex * 8)
  tcr := r.tcr &&& ~~~(0xFFFF : Word) ||| 25
  ttbr0 := BitVec.ofNat 64 g.l1TablePhys

/-- `mmu::virt_to_phys`. -/
def virtToPhys (g : Globals) (va : Nat) : Nat := add64 va g.imagePhysOffset

variable {I : Image} {table va : Nat} {mem : Nat → Word}

theorem add64_sub64 {a v p : Nat} (hv : v ≤ a)
    (hp : a - v + p < 2 ^ 64) :
    add64 (sub64 a v) p = a - v + p ∧ add64 a (sub64 p v) = a - v + p := by
  unfold add64 sub64
  omega

/-- Inside the image `virt_to_phys` is exact. -/
theorem virtToPhys_eq (h : I.Contains va 1) :
    virtToPhys (init I table mem).1 va = I.phys va := by
  have hphys := I.physical_fits
  have hvirt := I.virtual_fits
  unfold Image.Contains at h
  exact (add64_sub64 h.1 (by omega)).2

/-- What `init` leaves behind: the table of one block, zeros otherwise, and its
physical address. -/
theorem init_spec (htable : I.Contains table 4096)
    (hzero : ∀ i < 512, mem (I.phys table + 8 * i) = 0) :
    (init I table mem).1.l1TablePhys = I.phys table ∧
      ∀ i < 512, (init I table mem).2 (I.phys table + 8 * i) =
        if i = 0 then blockDescriptor else 0 := by
  have hphys := I.physical_fits
  have hvirt := I.virtual_fits
  unfold Image.Contains at htable
  refine ⟨(add64_sub64 htable.1 (by omega)).1, fun i hi => ?_⟩
  simp only [init]
  by_cases hi0 : i = 0
  · rw [if_pos hi0, hi0, Nat.mul_zero, Nat.add_zero, Function.update_self]
  · rw [if_neg hi0, Function.update_of_ne (by omega), hzero i hi]

section Activated

variable (g : Globals) (r : Regs)

/-- The masks of `activate_this_core`, bit by bit. -/
theorem getLsbD_masks : ∀ i : Fin 64,
    ((0xFF : Word) <<< (kDeviceAttrIndex * 8)).getLsbD i =
        decide (16 ≤ i.val ∧ i.val < 24) ∧
      (kMairDeviceNGnRnE <<< (kDeviceAttrIndex * 8)).getLsbD i = false ∧
      (0xFFFF : Word).getLsbD i = decide (i.val < 16) ∧
      (16 ≤ i.val → (25 : Word).getLsbD i = false) := by
  decide +kernel

/-- Only the attribute of the device index changes. -/
theorem getLsbD_mair {i : Nat} (hi : i < 64) :
    (activateThisCore g r).mair.getLsbD i =
      if 16 ≤ i ∧ i < 24 then false else r.mair.getLsbD i := by
  obtain ⟨hmask, hattr, -, -⟩ := getLsbD_masks ⟨i, hi⟩
  simp only at hmask hattr
  rw [activateThisCore, BitVec.getLsbD_or, BitVec.getLsbD_and,
    BitVec.getLsbD_not, hmask, hattr, Bool.or_false]
  by_cases hdevice : 16 ≤ i ∧ i < 24
  · simp [hdevice]
  · simp [hdevice, hi]

/-- Only the fields for the lower half change. -/
theorem getLsbD_tcr {i : Nat} (hi : i < 64) :
    (activateThisCore g r).tcr.getLsbD i =
      if i < 16 then (25 : Word).getLsbD i else r.tcr.getLsbD i := by
  obtain ⟨-, -, hmask, hsize⟩ := getLsbD_masks ⟨i, hi⟩
  simp only at hmask hsize
  rw [activateThisCore, BitVec.getLsbD_or, BitVec.getLsbD_and,
    BitVec.getLsbD_not, hmask]
  by_cases hlow : i < 16
  · simp [hlow]
  · rw [hsize (by omega), if_neg hlow, decide_eq_false hlow]
    simp [hi]

theorem field_tcr {lo len : Nat} (h : lo + len ≤ 16) :
    field (activateThisCore g r).tcr lo len = field 25 lo len := by
  refine field_congr fun i hi => ?_
  rw [getLsbD_tcr g r (by omega), if_pos (by omega)]

theorem field_tcr_above {lo len : Nat} (h : 16 ≤ lo) (hlen : lo + len ≤ 64) :
    field (activateThisCore g r).tcr lo len = field r.tcr lo len := by
  refine field_congr fun i hi => ?_
  rw [getLsbD_tcr g r (by omega), if_neg (by omega)]

theorem outputBits_activated :
    outputBits (activateThisCore g r) = outputBits r := by
  rw [outputBits, field_tcr_above g r (by decide) (by decide), outputBits]

theorem untagged_activated (va : Nat) :
    untagged (activateThisCore g r) va = untagged r va := by
  rw [untagged, field_tcr_above g r (by decide) (by decide), untagged]

theorem Image.Reached.activated {r : Regs} (h : I.Reached r) :
    I.Reached (activateThisCore g r) where
  short := (field_tcr_above g r (by decide) (by decide)).trans h.short
  reaches := (outputBits_activated g r).symm ▸ h.reaches

theorem field_mair_device : field (activateThisCore g r).mair 16 8 = 0 := by
  have hzero : field (activateThisCore g r).mair 16 8 = field 0 16 8 := by
    refine field_congr fun i hi => ?_
    rw [getLsbD_mair g r (by omega), if_pos (by omega)]
    simp
  rw [hzero]
  decide

end Activated

/-- The mapping of device memory: to itself, Device-nGnRnE, for EL1 only, to be
read and written but never executed. -/
def deviceMapping (va : Nat) : Mapping :=
  { pa := va, attr := 0, ap := 0, sh := 2, pxn := true, uxn := true }

/-- The descriptor as the walk reads it. -/
theorem leaf_blockDescriptor (g : Globals) (r : Regs) {va : Nat}
    (h : va < 2 ^ 30) :
    leaf (activateThisCore g r) blockDescriptor 30 va =
      some (deviceMapping va) := by
  have hfields : field blockDescriptor 10 1 = 1 ∧
      field blockDescriptor 30 18 = 0 ∧ field blockDescriptor 2 3 = 2 ∧
      field blockDescriptor 6 2 = 0 ∧ field blockDescriptor 8 2 = 2 ∧
      field blockDescriptor 53 1 = 1 ∧ field blockDescriptor 54 1 = 1 := by
    decide +kernel
  obtain ⟨haf, hpa, hattr, hap, hsh, hpxn, huxn⟩ := hfields
  have hdevice := field_mair_device g r
  have hbase : field blockDescriptor 30 18 * 2 ^ 30 <
      2 ^ outputBits (activateThisCore g r) := by
    rw [hpa, Nat.zero_mul]
    exact Nat.two_pow_pos _
  rw [leaf, if_pos ⟨.inl haf, hbase⟩]
  simp only [hpa, hattr, hap, hsh, hpxn, huxn, hdevice, Nat.zero_mul,
    Nat.zero_add, Nat.mod_eq_of_lt h, deviceMapping, decide_true]

/-- The walk on a core that has run `activate_this_core`. -/
theorem translate_activated (htable : I.Contains table 4096)
    (haligned : table % 4096 = 0)
    (hzero : ∀ i < 512, mem (I.phys table + 8 * i) = 0) {r : Regs}
    (hr : I.Reached r) (va : Nat) :
    translate (activateThisCore (init I table mem).1 r) (init I table mem).2
      va = if untagged r va < 2 ^ 30 then some (deviceMapping (untagged r va))
        else none := by
  obtain ⟨hphys, hentries⟩ := init_spec htable hzero
  set g := (init I table mem).1
  have hfits := I.physical_fits
  have hpage := I.physical_aligned
  have hpage' := I.virtual_aligned
  obtain ⟨hshort, hreaches⟩ := hr.activated g
  unfold Image.Contains at htable
  have hbase : field (activateThisCore g r).ttbr0 12 36 * 2 ^ 12 =
      I.phys table := by
    rw [activateThisCore, hphys]
    apply field_mul_two_pow
    · unfold Image.phys
      omega
    · unfold Image.phys
      exact Nat.dvd_of_mod_eq_zero (by omega)
    · decide
  have hlt : I.phys table < 2 ^ outputBits (activateThisCore g r) := by
    unfold Image.phys
    omega
  rw [translate_39 _ _ (field_tcr g r (by decide)) (field_tcr g r (by decide))
    (field_tcr g r (by decide)) hshort (hbase.symm ▸ hlt), hbase,
    untagged_activated]
  set addr := untagged r va
  by_cases hlow : addr < 2 ^ 39
  · have hindex : addr / 2 ^ 30 % 512 < 512 := Nat.mod_lt _ (by decide)
    rw [if_pos hlow, walk, hentries _ hindex]
    by_cases hdevice : addr < 2 ^ 30
    · have hfirst : addr / 2 ^ 30 % 512 = 0 := by omega
      rw [if_pos hfirst, if_neg (by decide), if_pos (by decide),
        if_pos hdevice]
      exact leaf_blockDescriptor g r hdevice
    · have hother : addr / 2 ^ 30 % 512 ≠ 0 := by omega
      rw [if_neg hother, if_neg (by decide), if_neg (by decide),
        if_neg hdevice]
  · rw [if_neg hlow, if_neg (by omega)]

/-- On every core that the bootloader has prepared, `activate_this_core` maps
the first gigabyte to itself as device memory and leaves every other address of
the lower half unmapped, whatever else its registers held before.  The
registers' fields for the upper half and the other memory attributes stay as
they were; so does `TBI0`, under which an address is the one without its top
byte. -/
theorem identity_map (htable : I.Contains table 4096)
    (haligned : table % 4096 = 0)
    (hzero : ∀ i < 512, mem (I.phys table + 8 * i) = 0) {r : Regs}
    (hr : I.Reached r) :
    (∀ va < 2 ^ 64, va / 2 ^ 55 % 2 = 0 →
      translate (activateThisCore (init I table mem).1 r) (init I table mem).2
        va = if untagged r va < 2 ^ 30
          then some (deviceMapping (untagged r va)) else none) ∧
    ∀ i < 64,
      (16 ≤ i → (activateThisCore (init I table mem).1 r).tcr.getLsbD i =
        r.tcr.getLsbD i) ∧
      (i < 16 ∨ 24 ≤ i →
        (activateThisCore (init I table mem).1 r).mair.getLsbD i =
          r.mair.getLsbD i) := by
  constructor
  · intro va _ _
    exact translate_activated htable haligned hzero hr va
  · intro i hi
    constructor
    · intro hhigh
      rw [getLsbD_tcr _ r hi, if_neg (by omega)]
    · intro hother
      rw [getLsbD_mair _ r hi, if_neg (by omega)]

/-- An image in the topmost 2 GiB, as `aarch64.ld` places it. -/
def sampleImage : Image :=
  ⟨0x40000000, 0xffffffff80000000, 0x400000, by decide, by decide, by decide,
    by decide⟩

/-- Registers with `TBI0` set and 48 bits of physical addresses. -/
def sampleRegs : Regs := ⟨0xff440c0400, 0x1236535803510, 77⟩

theorem sampleRegs_reached : sampleImage.Reached sampleRegs :=
  ⟨by decide, by decide⟩

/-- The flag register of the UART, at an address with a tag. -/
theorem identity_map_sample :
    sampleImage.Reached sampleRegs ∧
    translate (activateThisCore (init sampleImage 0xffffffff80002000 0).1
        sampleRegs) (init sampleImage 0xffffffff80002000 0).2
      0xab00000009000018 = some (deviceMapping 0x09000018) :=
  ⟨sampleRegs_reached, ((identity_map ⟨by decide, by decide⟩ (by decide)
    (fun _ _ => rfl) sampleRegs_reached).1 0xab00000009000018 (by decide)
    (by decide)).trans (by decide)⟩

end Mmu

end IntroOs
