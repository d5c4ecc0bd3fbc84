/-
The probe of the virtio-blk device, as programs of register accesses, against
the registers of virtio-mmio transports: which device is taken, when it is
taken into use, and what it has been told by then.
-/
import IntroOs.Interact
import IntroOs.Monitor
import IntroOs.VirtioDisk
import Mathlib.Data.List.Basic
import Mathlib.Logic.Function.Basic

namespace IntroOs

namespace DiskReader

open Interact (Prog)

def kMmioBase : Nat := 0x0a000000

def kMmioStride : Nat := 0x200

def kMmioSlots : Nat := 32

/-- The registers that the driver uses. -/
inductive Reg where
  | magic
  | version
  | deviceId
  | deviceFeatures
  | deviceFeaturesSel
  | driverFeatures
  | driverFeaturesSel
  | queueSel
  | queueNumMax
  | queueNum
  | queueReady
  | queueNotify
  | interruptStatus
  | interruptAck
  | status
  | queueDescLow
  | queueDescHigh
  | queueDriverLow
  | queueDriverHigh
  | queueDeviceLow
  | queueDeviceHigh
  | configLow
  | configHigh
deriving DecidableEq, Repr

def Reg.offset : Reg → Nat
  | .magic => 0x000
  | .version => 0x004
  | .deviceId => 0x008
  | .deviceFeatures => 0x010
  | .deviceFeaturesSel => 0x014
  | .driverFeatures => 0x020
  | .driverFeaturesSel => 0x024
  | .queueSel => 0x030
  | .queueNumMax => 0x034
  | .queueNum => 0x038
  | .queueReady => 0x044
  | .queueNotify => 0x050
  | .interruptStatus => 0x060
  | .interruptAck => 0x064
  | .status => 0x070
  | .queueDescLow => 0x080
  | .queueDescHigh => 0x084
  | .queueDriverLow => 0x090
  | .queueDriverHigh => 0x094
  | .queueDeviceLow => 0x0a0
  | .queueDeviceHigh => 0x0a4
  | .configLow => 0x100
  | .configHigh => 0x104

/-- What `g_base` is when it is at slot `i`. -/
def slotBase (i : Nat) : Nat := kMmioBase + i * kMmioStride

/-- The address of a register of slot `i`: `g_base + off`. -/
def Reg.addr (r : Reg) (i : Nat) : Nat := slotBase i + r.offset

/-- The slots are far enough apart: an address belongs to one register of one
slot, and the accesses below are named by the two. -/
theorem Reg.addr_inj {r r' : Reg} {i j : Nat} :
    r.addr i = r'.addr j ↔ r = r' ∧ i = j := by
  have hlt : ∀ r : Reg, r.offset < kMmioStride := by
    intro r
    cases r <;> decide
  have hinj : r.offset = r'.offset → r = r' := by
    intro heq
    cases r <;> cases r' <;> first | rfl | cases heq
  constructor
  · intro h
    have hr := hlt r
    have hr' := hlt r'
    unfold Reg.addr slotBase kMmioBase kMmioStride at *
    exact ⟨hinj (by omega), by omega⟩
  · rintro ⟨rfl, rfl⟩
    rfl

def kMagicValue : Nat := 0x74726976

def kDeviceIdBlock : Nat := 2

def kStatusAcknowledge : Nat := 1

def kStatusDriver : Nat := 2

def kStatusDriverOk : Nat := 4

def kStatusFeaturesOk : Nat := 8

def kFeatureVersion1Word1 : Nat := 1

/-- What is fixed about a device: its identity, the two words of features it
offers and which choices of them it accepts, the longest queue, and for a disk
the number of its sectors. -/
structure Device where
  magic : Nat
  version : Nat
  deviceId : Nat
  features : Nat × Nat
  accepts : Nat × Nat → Bool
  queueNumMax : Nat
  capacity : Nat
  capacity_lt : capacity < 2 ^ 64

/-- A 64-bit address, written as two halves. -/
structure Address where
  low : Nat
  high : Nat
deriving DecidableEq, Repr

def Address.value (a : Address) : Nat := a.low + a.high * 2 ^ 32

/-- What the driver has told a device. -/
structure Setup where
  status : Nat
  deviceFeaturesSel : Nat
  driverFeaturesSel : Nat
  driverFeatures : Nat × Nat
  queueSel : Nat
  queueNum : Nat
  queueReady : Nat
  desc : Address
  driver : Address
  device : Address
deriving DecidableEq, Repr

/-- A device after a reset. -/
def Setup.reset : Setup :=
  ⟨0, 0, 0, (0, 0), 0, 0, 0, ⟨0, 0⟩, ⟨0, 0⟩, ⟨0, 0⟩⟩

structure Transport where
  fixed : Device
  setup : Setup

def word (words : Nat × Nat) : Nat → Nat
  | 0 => words.1
  | 1 => words.2
  | _ => 0

def setWord (words : Nat × Nat) (i value : Nat) : Nat × Nat :=
  match i with
  | 0 => (value, words.2)
  | 1 => (words.1, value)
  | _ => words

def Transport.read (t : Transport) : Reg → Nat
  | .magic => t.fixed.magic
  | .version => t.fixed.version
  | .deviceId => t.fixed.deviceId
  | .deviceFeatures => word t.fixed.features t.setup.deviceFeaturesSel
  | .queueNumMax => if t.setup.queueSel = 0 then t.fixed.queueNumMax else 0
  | .queueReady => t.setup.queueReady
  | .status => t.setup.status
  | .configLow => t.fixed.capacity % 2 ^ 32
  | .configHigh => t.fixed.capacity / 2 ^ 32
  | _ => 0

/-- A write to the status register: 0 resets the device, and FEATURES_OK stays
clear when the device does not accept the driver's choice. -/
def Transport.writeStatus (t : Transport) (value : Nat) : Setup :=
  if value = 0 then .reset
  else if value &&& kStatusFeaturesOk ≠ 0 ∧
      t.fixed.accepts t.setup.driverFeatures = false then
    { t.setup with status := value - kStatusFeaturesOk }
  else { t.setup with status := value }

/-- Writes to the queue's registers are for the queue that is selected; there
is one. -/
def Setup.writeQueue (s : Setup) (set : Setup → Setup) : Setup :=
  if s.queueSel = 0 then set s else s

def Transport.write (t : Transport) (r : Reg) (v : Nat) : Transport :=
  let s := t.setup
  { t with setup :=
      match r with
      | .deviceFeaturesSel => { s with deviceFeaturesSel := v }
      | .driverFeaturesSel => { s with driverFeaturesSel := v }
      | .driverFeatures =>
          { s with driverFeatures :=
              setWord s.driverFeatures s.driverFeaturesSel v }
      | .queueSel => { s with queueSel := v }
      | .queueNum => s.writeQueue fun s => { s with queueNum := v }
      | .queueReady => s.writeQueue fun s => { s with queueReady := v }
      | .queueDescLow => s.writeQueue fun s => { s with desc.low := v }
      | .queueDescHigh => s.writeQueue fun s => { s with desc.high := v }
      | .queueDriverLow => s.writeQueue fun s => { s with driver.low := v }
      | .queueDriverHigh => s.writeQueue fun s => { s with driver.high := v }
      | .queueDeviceLow => s.writeQueue fun s => { s with device.low := v }
      | .queueDeviceHigh => s.writeQueue fun s => { s with device.high := v }
      | .status => t.writeStatus v
      | _ => s }

/-- An access of a register of the device in a slot. -/
inductive MmioAccess where
  | read (slot : Nat) (r : Reg)
  | write (slot : Nat) (r : Reg) (value : Nat)
deriving DecidableEq, Repr

/-- The transports, one for each slot. -/
abbrev Bus := Nat → Transport

def mmio : MmioAccess → Bus → Nat × Bus
  | .read i r, bus => ((bus i).read r, bus)
  | .write i r v, bus => (0, Function.update bus i ((bus i).write r v))

/-- The layout of `Dma`: each member at the next multiple of its alignment. -/
def alignTo (offset alignment : Nat) : Nat :=
  (offset + alignment - 1) / alignment * alignment

def kDescSize : Nat := 16

def kAvailSize : Nat := 4 + 2 * kQueueSize

def kUsedSize : Nat := 4 + 8 * kQueueSize

def kReqHeaderSize : Nat := 16

def kDescOffset : Nat := 0

def kAvailOffset : Nat := alignTo (kDescOffset + kDescSize * kQueueSize) 2

def kUsedOffset : Nat := alignTo (kAvailOffset + kAvailSize) 4

def kHeaderOffset : Nat := alignTo (kUsedOffset + kUsedSize) 16

def kStatusOffset : Nat := kHeaderOffset + kReqHeaderSize

def kDataOffset : Nat := alignTo (kStatusOffset + 1) 16

namespace Probe

abbrev Code := Prog MmioAccess Nat

/-- `reg_read`, with `g_base` at slot `i`. -/
def regRead (i : Nat) (r : Reg) : Code Nat := .request (.read i r)

def regWrite (i : Nat) (r : Reg) (value : Nat) : Code Unit := do
  let _ ← Prog.request (.write i r value)
  return ()

/-- `write_addr`, of a physical address. -/
def writeAddr (i : Nat) (low high : Reg) (phys : Nat) : Code Unit := do
  regWrite i low (phys % 2 ^ 32)
  regWrite i high (phys / 2 ^ 32 % 2 ^ 32)

/-- The condition of `find_device`. -/
def isModernDisk (i : Nat) : Code Bool := do
  let magic ← regRead i .magic
  if magic ≠ kMagicValue then return false
  else do
    let version ← regRead i .version
    if version ≠ 2 then return false
    else do
      let id ← regRead i .deviceId
      return decide (id = kDeviceIdBlock)

/-- The loop of `find_device`, behind a round that was at the slot `last`. -/
def scan (last : Nat) : List Nat → Code (Nat × Bool)
  | [] => return (last, false)
  | i :: rest => do
      if ← isModernDisk i then return (i, true) else scan i rest

/-- `find_device`: the slot that `g_base` is left at, which is the last one
where there is no disk, and whether there is one. -/
def findDevice : Code (Nat × Bool) := scan 0 (List.range kMmioSlots)

/-- `init_device` from the reset to the check of FEATURES_OK. -/
def negotiate (i : Nat) : Code Bool := do
  regWrite i .status 0
  regWrite i .status kStatusAcknowledge
  regWrite i .status (kStatusAcknowledge ||| kStatusDriver)
  regWrite i .deviceFeaturesSel 1
  let offered ← regRead i .deviceFeatures
  if offered &&& kFeatureVersion1Word1 = 0 then return false
  else do
    regWrite i .driverFeaturesSel 0
    regWrite i .driverFeatures 0
    regWrite i .driverFeaturesSel 1
    regWrite i .driverFeatures kFeatureVersion1Word1
    regWrite i .status (kStatusAcknowledge ||| kStatusDriver |||
      kStatusFeaturesOk)
    let status ← regRead i .status
    return decide (status &&& kStatusFeaturesOk ≠ 0)

/-- `init_device` from there to DRIVER_OK; `dma` is the physical address of
`g_dma`. -/
def setQueue (i dma : Nat) : Code Bool := do
  regWrite i .queueSel 0
  let most ← regRead i .queueNumMax
  if most < kQueueSize then return false
  else do
    regWrite i .queueNum kQueueSize
    writeAddr i .queueDescLow .queueDescHigh (dma + kDescOffset)
    writeAddr i .queueDriverLow .queueDriverHigh (dma + kAvailOffset)
    writeAddr i .queueDeviceLow .queueDeviceHigh (dma + kUsedOffset)
    regWrite i .queueReady 1
    regWrite i .status (kStatusAcknowledge ||| kStatusDriver |||
      kStatusFeaturesOk ||| kStatusDriverOk)
    return true

def readCapacity (i : Nat) : Code Nat := do
  let low ← regRead i .configLow
  let high ← regRead i .configHigh
  return low ||| high <<< 32

/-- `init_device`: the slot that `g_base` is left at, and the capacity of the
disk if it succeeds. -/
def initDevice (dma : Nat) : Code (Nat × Option Nat) := do
  let (i, found) ← findDevice
  if found then do
    if ← negotiate i then do
      if ← setQueue i dma then do
        let capacity ← readCapacity i
        return (i, some capacity)
      else return (i, none)
    else return (i, none)
  else return (i, none)

section Runs

variable (bus : Bus) (i : Nat)

@[simp]
theorem run_regRead (r : Reg) :
    (regRead i r).run mmio bus = ((bus i).read r, bus) := (rfl)

@[simp]
theorem run_regWrite (r : Reg) (value : Nat) :
    (regWrite i r value).run mmio bus =
      ((), Function.update bus i ((bus i).write r value)) := (rfl)

/-- A modern block device. -/
def modernDisk (d : Device) : Bool :=
  decide (d.magic = kMagicValue ∧ d.version = 2 ∧ d.deviceId = kDeviceIdBlock)

theorem run_isModernDisk :
    (isModernDisk i).run mmio bus = (modernDisk (bus i).fixed, bus) := by
  simp only [isModernDisk, modernDisk, Prog.run_bind, Prog.run_ite,
    Prog.run_pure, run_regRead, Transport.read]
  by_cases hmagic : (bus i).fixed.magic = kMagicValue
  · by_cases hversion : (bus i).fixed.version = 2
    · simp [hmagic, hversion]
    · simp [hversion]
  · simp [hmagic]

/-- `find_device` takes the first slot with a modern disk. -/
theorem run_scan (last : Nat) (slots : List Nat) :
    (scan last slots).run mmio bus =
      ((slots.find? fun i => modernDisk (bus i).fixed).elim
        (slots.getLastD last, false) fun i => (i, true), bus) := by
  induction slots generalizing last with
  | nil => rfl
  | cons i rest ih =>
      simp only [scan, Prog.run_bind, Prog.run_ite, Prog.run_pure,
        run_isModernDisk, ih, List.find?_cons, List.getLastD_cons]
      cases modernDisk (bus i).fixed <;> rfl

/-- What the driver has said when it has checked the features, and the status
that is left. -/
def negotiated (offered accepted : Bool) : Setup :=
  if offered then
    { Setup.reset with
      status := if accepted then 11 else 3
      deviceFeaturesSel := 1, driverFeaturesSel := 1
      driverFeatures := (0, kFeatureVersion1Word1) }
  else { Setup.reset with status := 3, deviceFeaturesSel := 1 }

def offersVersion1 (d : Device) : Bool :=
  decide (d.features.2 &&& kFeatureVersion1Word1 ≠ 0)

def acceptsVersion1 (d : Device) : Bool :=
  d.accepts (0, kFeatureVersion1Word1)

/-- The device up to the question what it offers. -/
theorem announced (t : Transport) :
    (((t.write .status 0).write .status kStatusAcknowledge).write .status
      (kStatusAcknowledge ||| kStatusDriver)).write .deviceFeaturesSel 1 =
      ⟨t.fixed, negotiated false false⟩ := by
  simp [Transport.write, Transport.writeStatus, negotiated, Setup.reset,
    kStatusAcknowledge, kStatusDriver, kStatusFeaturesOk]

/-- The device from there to FEATURES_OK. -/
theorem chosen (d : Device) :
    (((((⟨d, negotiated false false⟩ : Transport).write .driverFeaturesSel
      0).write .driverFeatures 0).write .driverFeaturesSel 1).write
      .driverFeatures kFeatureVersion1Word1).write .status
      (kStatusAcknowledge ||| kStatusDriver ||| kStatusFeaturesOk) =
      ⟨d, negotiated true (acceptsVersion1 d)⟩ := by
  have haccepts : d.accepts (0, kFeatureVersion1Word1) = acceptsVersion1 d := rfl
  cases hd : acceptsVersion1 d with
  | true =>
      rw [hd] at haccepts
      simp [Transport.write, Transport.writeStatus, negotiated, Setup.reset,
        setWord, haccepts, kStatusAcknowledge, kStatusDriver,
        kStatusFeaturesOk]
  | false =>
      rw [hd] at haccepts
      simp [Transport.write, Transport.writeStatus, negotiated, Setup.reset,
        setWord, haccepts, kStatusAcknowledge, kStatusDriver,
        kStatusFeaturesOk]

theorem featuresOk_kept (d : Device) (accepted : Bool) :
    decide ((⟨d, negotiated true accepted⟩ : Transport).read .status &&&
      kStatusFeaturesOk ≠ 0) = accepted := by
  cases accepted <;>
    simp [Transport.read, negotiated, kStatusFeaturesOk]

theorem run_negotiate :
    (negotiate i).run mmio bus =
      (offersVersion1 (bus i).fixed && acceptsVersion1 (bus i).fixed,
        Function.update bus i ⟨(bus i).fixed,
          negotiated (offersVersion1 (bus i).fixed)
            (offersVersion1 (bus i).fixed && acceptsVersion1 (bus i).fixed)⟩) := by
  simp only [negotiate, Prog.run_bind, Prog.run_ite, Prog.run_pure,
    run_regWrite, run_regRead, Function.update_self, Function.update_idem,
    announced, chosen]
  have hoffers : (Transport.read ⟨(bus i).fixed, negotiated false false⟩
      .deviceFeatures) = (bus i).fixed.features.2 := rfl
  rw [hoffers]
  by_cases hnone : (bus i).fixed.features.2 &&& kFeatureVersion1Word1 = 0
  · rw [if_pos hnone, offersVersion1, decide_eq_false (by simpa using hnone)]
    rfl
  · rw [if_neg hnone, offersVersion1, decide_eq_true hnone, Bool.true_and,
      featuresOk_kept]

def addressOf (phys : Nat) : Address :=
  ⟨phys % 2 ^ 32, phys / 2 ^ 32 % 2 ^ 32⟩

/-- What a device has been told when it is in use. -/
def configured (dma : Nat) : Setup where
  status := 15
  deviceFeaturesSel := 1
  driverFeaturesSel := 1
  driverFeatures := (0, kFeatureVersion1Word1)
  queueSel := 0
  queueNum := kQueueSize
  queueReady := 1
  desc := addressOf (dma + kDescOffset)
  driver := addressOf (dma + kAvailOffset)
  device := addressOf (dma + kUsedOffset)

theorem queue_set {d : Device} (h : acceptsVersion1 d = true) (dma : Nat) :
    ((((((((((⟨d, negotiated true true⟩ : Transport).write .queueSel 0).write
      .queueNum kQueueSize).write
      .queueDescLow (addressOf (dma + kDescOffset)).low).write
      .queueDescHigh (addressOf (dma + kDescOffset)).high).write
      .queueDriverLow (addressOf (dma + kAvailOffset)).low).write
      .queueDriverHigh (addressOf (dma + kAvailOffset)).high).write
      .queueDeviceLow (addressOf (dma + kUsedOffset)).low).write
      .queueDeviceHigh (addressOf (dma + kUsedOffset)).high).write
      .queueReady 1).write .status
      (kStatusAcknowledge ||| kStatusDriver ||| kStatusFeaturesOk |||
        kStatusDriverOk) = ⟨d, configured dma⟩ := by
  have haccepts : d.accepts (0, kFeatureVersion1Word1) = true := h
  simp [Transport.write, Transport.writeStatus, Setup.writeQueue, negotiated,
    configured, Setup.reset, haccepts, kStatusAcknowledge, kStatusDriver,
    kStatusFeaturesOk, kStatusDriverOk]

theorem run_setQueue {d : Device} (h : acceptsVersion1 d = true) (dma : Nat)
    (hbus : bus i = ⟨d, negotiated true true⟩) :
    (setQueue i dma).run mmio bus =
      (decide (kQueueSize ≤ d.queueNumMax),
        Function.update bus i ⟨d,
          if kQueueSize ≤ d.queueNumMax then configured dma
          else negotiated true true⟩) := by
  have hmost : ((⟨d, negotiated true true⟩ : Transport).write .queueSel 0).read
      .queueNumMax = d.queueNumMax := rfl
  simp only [setQueue, writeAddr, Prog.run_bind, Prog.run_ite, Prog.run_pure,
    run_regWrite, run_regRead, Function.update_self, Function.update_idem,
    hbus, hmost]
  by_cases hlong : kQueueSize ≤ d.queueNumMax
  · rw [if_neg (Nat.not_lt.mpr hlong), if_pos hlong, decide_eq_true hlong]
    exact congrArg (fun t => (true, Function.update bus i t)) (queue_set h dma)
  · rw [if_pos (Nat.not_le.mp hlong), if_neg hlong, decide_eq_false hlong]
    rfl

theorem run_readCapacity :
    (readCapacity i).run mmio bus = ((bus i).fixed.capacity, bus) := by
  have hhalves : (bus i).fixed.capacity % 2 ^ 32 |||
      ((bus i).fixed.capacity / 2 ^ 32) <<< 32 = (bus i).fixed.capacity := by
    rw [Nat.or_comm, ← Nat.shiftLeft_add_eq_or_of_lt
      (Nat.mod_lt _ (Nat.two_pow_pos 32)), Nat.shiftLeft_eq, Nat.div_add_mod']
  simp only [readCapacity, Prog.run_bind, Prog.run_pure, run_regRead,
    Transport.read, hhalves]

/-- The slot that the driver takes. -/
def firstDisk : Option Nat :=
  (List.range kMmioSlots).find? fun i => modernDisk (bus i).fixed

/-- A disk the driver can use. -/
def usable (d : Device) : Bool :=
  offersVersion1 d && acceptsVersion1 d && decide (kQueueSize ≤ d.queueNumMax)

/-- What the disk has been told when `init_device` returns. -/
def told (dma : Nat) (d : Device) : Setup :=
  if usable d then configured dma
  else negotiated (offersVersion1 d) (offersVersion1 d && acceptsVersion1 d)

theorem run_findDevice :
    findDevice.run mmio bus = ((firstDisk bus).elim (kMmioSlots - 1, false)
      fun i => (i, true), bus) := run_scan ..

theorem run_initDevice (dma : Nat) :
    (initDevice dma).run mmio bus =
      (firstDisk bus).elim ((kMmioSlots - 1, none), bus) fun i =>
        ((i, if usable (bus i).fixed then some (bus i).fixed.capacity
          else none),
        Function.update bus i ⟨(bus i).fixed, told dma (bus i).fixed⟩) := by
  simp only [initDevice, Prog.run_bind, run_findDevice]
  cases firstDisk bus with
  | none => rfl
  | some i =>
      simp only [Prog.run_bind, Prog.run_ite, run_negotiate, Prog.run_pure,
        Option.elim, if_true]
      cases hoffers : offersVersion1 (bus i).fixed with
      | false => simp [usable, told, hoffers]
      | true =>
          cases haccepts : acceptsVersion1 (bus i).fixed with
          | false => simp [usable, told, hoffers, haccepts]
          | true =>
              rw [Bool.true_and, if_pos rfl, run_setQueue _ _ haccepts dma
                (Function.update_self ..), run_readCapacity]
              by_cases hlong : kQueueSize ≤ (bus i).fixed.queueNumMax
              · simp [usable, told, hoffers, haccepts, hlong]
              · simp [usable, told, hoffers, haccepts, hlong]

theorem value_addressOf {phys : Nat} (h : phys < 2 ^ 64) :
    (addressOf phys).value = phys := by
  rw [Address.value, addressOf, Nat.mod_eq_of_lt (a := phys / 2 ^ 32)]
  · exact Nat.mod_add_div' phys (2 ^ 32)
  · omega

/-- A device in use: it has seen DRIVER_OK on top of the other status bits and
VERSION_1 as the only feature, and its queue is the one in `g_dma`. -/
structure Live (dma : Nat) (s : Setup) : Prop where
  status : s.status = kStatusAcknowledge + kStatusDriver + kStatusFeaturesOk +
    kStatusDriverOk
  features : s.driverFeatures = (0, kFeatureVersion1Word1)
  ready : s.queueReady = 1
  length : s.queueNum = kQueueSize
  desc : s.desc.value = dma + kDescOffset
  driver : s.driver.value = dma + kAvailOffset
  device : s.device.value = dma + kUsedOffset

theorem configured_live {dma : Nat} (h : dma + 4096 ≤ 2 ^ 64) :
    Live dma (configured dma) where
  status := rfl
  features := rfl
  ready := rfl
  length := rfl
  desc := value_addressOf (by simp only [kDescOffset]; omega)
  driver := value_addressOf (by
    have : kAvailOffset = 128 := rfl
    omega)
  device := value_addressOf (by
    have : kUsedOffset = 148 := rfl
    omega)

theorem negotiated_idle (offered accepted : Bool) :
    (negotiated offered accepted).status &&& kStatusDriverOk = 0 ∧
      (negotiated offered accepted).queueReady = 0 := by
  cases offered <;> cases accepted <;> decide

theorem initDevice_eq_some {dma capacity : Nat} :
    ((initDevice dma).run mmio bus).1 = (i, some capacity) ↔
      firstDisk bus = some i ∧ usable (bus i).fixed = true ∧
        capacity = (bus i).fixed.capacity := by
  rw [run_initDevice]
  cases firstDisk bus with
  | none => simp
  | some j =>
      simp only [Option.elim]
      cases husable : usable (bus j).fixed with
      | true =>
          constructor
          · intro heq
            cases heq
            exact ⟨rfl, husable, rfl⟩
          · rintro ⟨hj, -, rfl⟩
            cases hj
            rfl
      | false =>
          constructor
          · intro heq
            cases heq
          · rintro ⟨hj, husable', -⟩
            cases hj
            rw [husable] at husable'
            cases husable'

theorem bus_initDevice {dma : Nat} (h : firstDisk bus = some i) :
    ((initDevice dma).run mmio bus).2 =
      Function.update bus i ⟨(bus i).fixed, told dma (bus i).fixed⟩ := by
  rw [run_initDevice, h]
  rfl

/-- Where `init_device` succeeds, the device is in use. -/
theorem live_initDevice {dma capacity : Nat} (h : dma + 4096 ≤ 2 ^ 64)
    (hsome : ((initDevice dma).run mmio bus).1 = (i, some capacity)) :
    Live dma (((initDevice dma).run mmio bus).2 i).setup := by
  obtain ⟨hfirst, husable, -⟩ := (initDevice_eq_some bus i).mp hsome
  rw [bus_initDevice bus i hfirst, Function.update_self, told, if_pos husable]
  exact configured_live h

theorem usable_of_failed {dma : Nat} (h : firstDisk bus = some i)
    (hnone : ((initDevice dma).run mmio bus).1.2 = none) :
    usable (bus i).fixed = false := by
  rw [run_initDevice, h] at hnone
  by_contra husable
  rw [Option.elim, if_pos (eq_true_of_ne_false husable)] at hnone
  cases hnone

/-- A write of this value to this register leaves a device out of use. -/
def Spares (r : Reg) (v : Nat) : Prop :=
  r ≠ .queueReady ∧ (r = .status → v &&& kStatusDriverOk = 0)
deriving Decidable

section Accesses

variable {bus : Bus} {i : Nat} {ok : MmioAccess → Prop}

@[simp]
theorem only_regRead (r : Reg) :
    (regRead i r).Only mmio ok bus ↔ ok (.read i r) := Prog.only_request ..

@[simp]
theorem only_regWrite (r : Reg) (value : Nat) :
    (regWrite i r value).Only mmio ok bus ↔ ok (.write i r value) := by
  simp only [regWrite, Prog.only_bind, Prog.only_request, Prog.only_pure,
    and_true]

theorem only_scan (hread : ∀ i r, ok (.read i r)) (last : Nat)
    (slots : List Nat) : (scan last slots).Only mmio ok bus := by
  induction slots generalizing last with
  | nil => trivial
  | cons i rest ih =>
      simp only [scan, Prog.only_bind, Prog.only_ite, run_isModernDisk,
        Prog.only_pure, ih, implies_true, and_true]
      simp [isModernDisk, hread]

theorem only_negotiate (hread : ∀ r, ok (.read i r))
    (hwrite : ∀ r v, Spares r v → ok (.write i r v)) :
    (negotiate i).Only mmio ok bus := by
  simp only [negotiate, Prog.only_bind, Prog.only_ite, only_regWrite,
    only_regRead, Prog.only_pure, hread, true_and, implies_true, and_true]
  refine ⟨hwrite _ _ ?_, hwrite _ _ ?_, hwrite _ _ ?_, hwrite _ _ ?_,
    fun _ => ⟨hwrite _ _ ?_, hwrite _ _ ?_, hwrite _ _ ?_, hwrite _ _ ?_,
      hwrite _ _ ?_⟩⟩
  all_goals decide

theorem only_setQueue {d : Device} {dma : Nat} (hread : ∀ r, ok (.read i r))
    (hbus : bus i = ⟨d, negotiated true true⟩)
    (hwrite : ∀ r v, Spares r v → ok (.write i r v))
    (hlong : kQueueSize ≤ d.queueNumMax → ∀ r v, ok (.write i r v)) :
    (setQueue i dma).Only mmio ok bus := by
  have hsel := hwrite .queueSel 0 (by decide)
  have hmost : ((⟨d, negotiated true true⟩ : Transport).write .queueSel 0).read
      .queueNumMax = d.queueNumMax := rfl
  simp only [setQueue, writeAddr, Prog.only_bind, Prog.only_ite, only_regWrite,
    only_regRead, Prog.only_pure, run_regWrite, run_regRead,
    Function.update_self, hbus, hmost, hread, hsel, true_and, implies_true]
  intro hle
  simp only [hlong (Nat.not_lt.mp hle), and_self]

/-- The accesses of `init_device`: it reads, it writes to the first modern
disk, and only where that one is usable does it take it into use. -/
theorem only_initDevice {dma : Nat} (hread : ∀ i r, ok (.read i r))
    (hwrite : ∀ i r v, firstDisk bus = some i →
      (usable (bus i).fixed = false → Spares r v) → ok (.write i r v)) :
    (initDevice dma).Only mmio ok bus := by
  simp only [initDevice, Prog.only_bind, run_findDevice]
  refine ⟨only_scan hread _ _, ?_⟩
  cases hfirst : firstDisk bus with
  | none => trivial
  | some i =>
      have hspares (r : Reg) (v : Nat) (h : Spares r v) : ok (.write i r v) :=
        hwrite i r v hfirst fun _ => h
      simp only [Option.elim, if_true, Prog.only_bind, Prog.only_ite,
        run_negotiate, Prog.only_pure, Bool.and_eq_true]
      refine ⟨only_negotiate (hread i) hspares, fun hok => ⟨?_, ?_⟩,
        fun _ => trivial⟩
      · obtain ⟨hoffers, haccepts⟩ := hok
        rw [hoffers, haccepts]
        refine only_setQueue (hread i) (Function.update_self ..) hspares
          fun hlong r v => hwrite i r v hfirst fun husable => ?_
        rw [usable, hoffers, haccepts, decide_eq_true hlong] at husable
        cases husable
      · simp [readCapacity, hread]

end Accesses

/-- `init_device` succeeds exactly when the first modern disk offers and
accepts VERSION_1 and has a queue that is long enough, and then returns all 64
bits of its capacity.  The disk is in use then, with its queue at the members
of `g_dma`; otherwise it is told neither of DRIVER_OK nor of a queue by any
access, and ends with neither.  No access writes to anything but the first
modern disk. -/
theorem init_device_outcome (bus : Bus) {dma : Nat} (h : dma + 4096 ≤ 2 ^ 64) :
    let after := (initDevice dma).run mmio bus
    (∀ i capacity, after.1 = (i, some capacity) ↔
      firstDisk bus = some i ∧ usable (bus i).fixed = true ∧
        capacity = (bus i).fixed.capacity) ∧
    (∀ i capacity, after.1 = (i, some capacity) →
      Live dma (after.2 i).setup) ∧
    (∀ i, after.1.2 = none → firstDisk bus = some i →
      (after.2 i).setup.status &&& kStatusDriverOk = 0 ∧
        (after.2 i).setup.queueReady = 0) ∧
    (∀ i, firstDisk bus ≠ some i → after.2 i = bus i) ∧
    (initDevice dma).Only mmio (fun access => ∀ i r v,
      access = .write i r v → firstDisk bus = some i ∧
        (after.1.2 = none → r ≠ .queueReady ∧
          (r = .status → v &&& kStatusDriverOk = 0))) bus := by
  refine ⟨fun i capacity => initDevice_eq_some bus i,
    fun i capacity => live_initDevice bus i h, ?_, ?_, ?_⟩
  · intro i hnone hfirst
    have husable := usable_of_failed bus i hfirst hnone
    rw [bus_initDevice bus i hfirst, Function.update_self, told, husable,
      if_neg Bool.false_ne_true]
    exact negotiated_idle ..
  · intro i hi
    cases hfirst : firstDisk bus with
    | none =>
        rw [run_initDevice, hfirst]
        rfl
    | some j =>
        have hne : i ≠ j := fun heq => hi (heq ▸ hfirst)
        rw [bus_initDevice bus j hfirst, Function.update_of_ne hne]
  · refine only_initDevice ?_ ?_
    · intro i r i' r' v heq
      cases heq
    · intro i r v hfirst hspares i' r' v' heq
      cases heq
      exact ⟨hfirst, fun hnone =>
        hspares (usable_of_failed bus i hfirst hnone)⟩

theorem sampleCapacity_lt : 131072 < 2 ^ 64 := by decide

/-- A disk of 131072 sectors in the slot `i`, and nothing in the others. -/
def sampleBus (i : Nat) : Bus := fun j =>
  if j = i then
    ⟨⟨kMagicValue, 2, kDeviceIdBlock, (0x10, 1), fun f => f == (0, 1), 1024,
      131072, sampleCapacity_lt⟩, .reset⟩
  else
    ⟨⟨kMagicValue, 2, 0, (0, 0), fun _ => false, 0, 0, by decide⟩, .reset⟩

/-- A disk in slot 3 whose queue is too short. -/
def shortBus : Bus := fun j =>
  if j = 3 then
    ⟨⟨kMagicValue, 2, kDeviceIdBlock, (0x10, 1), fun f => f == (0, 1), 4,
      131072, sampleCapacity_lt⟩, .reset⟩
  else sampleBus 3 j

theorem init_device_outcome_last_slot :
    0x40090000 + 4096 ≤ 2 ^ 64 ∧
      ((initDevice 0x40090000).run mmio (sampleBus 31)).1 = (31, some 131072) ∧
      Live 0x40090000
        (((initDevice 0x40090000).run mmio (sampleBus 31)).2 31).setup ∧
      ((initDevice 0x40090000).run mmio shortBus).1 = (3, none) ∧
      firstDisk shortBus = some 3 ∧
      (((initDevice 0x40090000).run mmio shortBus).2 3).setup.status &&&
        kStatusDriverOk = 0 := by
  have hdma : 0x40090000 + 4096 ≤ 2 ^ 64 := by decide
  have hsome : ((initDevice 0x40090000).run mmio (sampleBus 31)).1 =
      (31, some 131072) := by decide +kernel
  have hnone : ((initDevice 0x40090000).run mmio shortBus).1 = (3, none) := by
    decide +kernel
  have hfirst : firstDisk shortBus = some 3 := by decide +kernel
  exact ⟨hdma, hsome,
    (init_device_outcome (sampleBus 31) hdma).2.1 31 131072 hsome, hnone,
    hfirst, ((init_device_outcome shortBus hdma).2.2.1 3 (by rw [hnone])
      hfirst).1⟩

end Runs

/-- The globals of the driver that the constructor sets, with the devices
behind them. -/
structure Driver where
  bus : Bus
  probed : Bool
  valid : Bool
  base : Nat
  capacity : Nat

def Driver.fresh (bus : Bus) : Driver := ⟨bus, false, false, 0, 0⟩

/-- Where the constructor is in `probe_locked`. -/
inductive Place where
  | check
  | probing (code : Code (Nat × Option Nat))
  | verdict (ok : Bool)
  | mark

/-- What `init_device` leaves in `g_base` and `g_capacity`: the first is moved
also where it fails.  Nobody reads `g_base` without the lock, so that it is
enough to move it at the end. -/
def Driver.keep (d : Driver) (found : Nat × Option Nat) : Driver :=
  { d with base := slotBase found.1, capacity := found.2.getD d.capacity }

def constructorStep (dma : Nat) (d : Driver) : Place → (Place ⊕ Unit) × Driver
  | .check =>
      if d.probed then (.inr (), d) else (.inl (.probing (initDevice dma)), d)
  | .probing code =>
      match code.step mmio d.bus with
      | (.inl code, bus) => (.inl (.probing code), { d with bus := bus })
      | (.inr result, bus) =>
          (.inl (.verdict result.2.isSome), { d with bus := bus }.keep result)
  | .verdict ok => (.inl .mark, { d with valid := ok })
  | .mark => (.inr (), { d with probed := true })

/-- `DiskReader::DiskReader` on any number of cores. -/
def constructor (Core : Type) (dma : Nat) :
    Monitor.Object Core Unit Unit Place Driver Empty where
  start _ _ d := some (none, d)
  enter _ _ := .check
  step _ place d := constructorStep dma d place
  move move _ := nomatch move

/-- `DiskReader::sector_count`, which reads `g_valid` and, maybe later,
`g_capacity`. -/
def sectorCount (d d' : Driver) : Nat := if d.valid then d'.capacity else 0

/-- The driver after one probe that nothing interrupts. -/
def Driver.after (dma : Nat) (bus : Bus) : Driver :=
  let probe := (initDevice dma).run mmio bus
  { Driver.keep (.fresh probe.2) probe.1 with
    probed := true, valid := probe.1.2.isSome }

section Once

variable {Core : Type} {dma : Nat} {bus : Bus}

/-- Behind the lock: the probe is where one from the fresh driver gets to, or
there is nothing left to do. -/
def Busy (dma : Nat) (bus : Bus) (log : List (Monitor.Done Core Unit Unit))
    (d : Driver) : Place → Prop
  | .check => log = [] ∧ d = .fresh bus ∨ d = .after dma bus
  | .probing code => log = [] ∧ d = .fresh d.bus ∧
      code.run mmio d.bus = (initDevice dma).run mmio bus
  | .verdict ok => log = [] ∧ ok = (Driver.after dma bus).valid ∧
      d = { Driver.after dma bus with probed := false, valid := false }
  | .mark => log = [] ∧ d = { Driver.after dma bus with probed := false }

def assertions (Core : Type) (dma : Nat) (bus : Bus) :
    Monitor.Assertions Core Unit Unit Place Driver where
  isFree log d := log = [] ∧ d = .fresh bus ∨ d = .after dma bus
  waits _ _ _ := True
  busy log _ _ place d := Busy dma bus log d place

theorem Busy.goesOn {log : List (Monitor.Done Core Unit Unit)}
    {d d' : Driver} {place place' : Place} (h : Busy dma bus log d place)
    (hstep : constructorStep dma d place = (.inl place', d')) :
    Busy dma bus log d' place' := by
  cases place with
  | check =>
      rw [constructorStep] at hstep
      split at hstep
      next => cases hstep
      next hprobed =>
        cases hstep
        obtain ⟨hlog, rfl⟩ | rfl := h
        · exact ⟨hlog, rfl, rfl⟩
        · exact absurd rfl hprobed
  | probing code =>
      obtain ⟨hlog, hfresh, hrun⟩ := h
      rw [constructorStep] at hstep
      split at hstep
      next code' bus' hcode =>
        cases hstep
        rw [hfresh]
        exact ⟨hlog, rfl, (Prog.run_of_goesOn hcode).trans hrun⟩
      next result bus' hcode =>
        cases hstep
        have hprobe := (Prog.run_of_returns hcode).symm.trans hrun
        rw [hfresh]
        refine ⟨hlog, ?_, ?_⟩
        · rw [Driver.after, ← hprobe]
        · rw [Driver.after, ← hprobe]
          rfl
  | verdict ok =>
      obtain ⟨hlog, rfl, rfl⟩ := h
      cases hstep
      exact ⟨hlog, rfl⟩
  | mark => cases hstep

theorem Busy.returns {log : List (Monitor.Done Core Unit Unit)}
    {d d' : Driver} {place : Place} {r : Unit} (h : Busy dma bus log d place)
    (hstep : constructorStep dma d place = (.inr r, d')) :
    d' = .after dma bus := by
  cases place with
  | check =>
      rw [constructorStep] at hstep
      split at hstep
      next hprobed =>
        cases hstep
        obtain ⟨-, rfl⟩ | rfl := h
        · cases hprobed
        · rfl
      next => cases hstep
  | probing code =>
      rw [constructorStep] at hstep
      split at hstep
      next => cases hstep
      next => cases hstep
  | verdict ok => cases hstep
  | mark =>
      obtain ⟨-, rfl⟩ := h
      cases hstep
      rfl

theorem assertions_sound :
    (assertions Core dma bus).Sound (constructor Core dma) where
  early log c call d r d' hstart := by cases hstart
  begins log c call d d' hstart := by
    cases hstart
    exact ⟨⟨id, fun _ _ _ _ => trivial, fun _ _ _ _ => id⟩, trivial⟩
  enters hfree _ := hfree
  goesOn hbusy hstep := ⟨hbusy.goesOn hstep, fun _ _ _ _ => trivial⟩
  returns hbusy hstep := ⟨.inr (hbusy.returns hstep), fun _ _ _ _ => trivial⟩
  moves log move d d' hmove := by cases move

/-- The cores that a constructor has returned on: they have held the lock
behind the probe.  Only they can rely on `g_valid` and `g_capacity`, which are
read without the lock and stored without a barrier between them. -/
def Constructed (log : List (Monitor.Done Core Unit Unit)) (core : Core) :
    Prop :=
  ∃ done ∈ log, done.core = core

theorem Constructed.ne_nil {log : List (Monitor.Done Core Unit Unit)}
    {core : Core} (h : Constructed log core) : log ≠ [] := by
  rintro rfl
  obtain ⟨done, hmem, -⟩ := h
  cases hmem

/-- What the constructor leaves where there is a disk that can be used. -/
theorem after_of_usable {i : Nat} (hfirst : firstDisk bus = some i)
    (husable : usable (bus i).fixed = true) :
    Driver.after dma bus = ⟨((initDevice dma).run mmio bus).2, true, true,
      slotBase i, (bus i).fixed.capacity⟩ := by
  have hprobe : ((initDevice dma).run mmio bus).1 =
      (i, some (bus i).fixed.capacity) :=
    (initDevice_eq_some bus i).mpr ⟨hfirst, husable, rfl⟩
  rw [Driver.after, hprobe]
  rfl

theorem valid_after_iff : (Driver.after dma bus).valid = true ↔
    ∃ i, firstDisk bus = some i ∧ usable (bus i).fixed = true := by
  constructor
  · intro hvalid
    obtain ⟨capacity, hsome⟩ := Option.isSome_iff_exists.mp hvalid
    obtain ⟨hfirst, husable, -⟩ :=
      (initDevice_eq_some bus _).mp (Prod.ext rfl hsome)
    exact ⟨_, hfirst, husable⟩
  · rintro ⟨i, hfirst, husable⟩
    rw [after_of_usable hfirst husable]

variable [DecidableEq Core] {calls calls' : List (Core × Unit)}
  {log log' : List (Monitor.Done Core Unit Unit)}
  {st st' : Monitor.State Core Unit Place Driver}

theorem hold_of_run (h : Monitor.Run (constructor Core dma) (.fresh bus) calls
    log st) : (assertions Core dma bus).Hold log st :=
  assertions_sound.run (.inl ⟨rfl, rfl⟩) h

theorem settled (h : Monitor.Run (constructor Core dma) (.fresh bus) calls
    log st) (hlog : log ≠ []) : st.shared = .after dma bus := by
  have hold := hold_of_run h
  cases hlocked : st.locked with
  | false =>
      obtain ⟨hnone, -⟩ | hafter := (hold.isFree hlocked).1
      · exact absurd hnone hlog
      · exact hafter
  | true =>
      obtain ⟨c, call, place, -, hbusy, -⟩ := hold.busy hlocked
      cases place with
      | check => exact hbusy.resolve_left fun h => hlog h.1
      | probing code => exact absurd hbusy.1 hlog
      | verdict ok => exact absurd hbusy.1 hlog
      | mark => exact absurd hbusy.1 hlog

/-- However constructors overlap, the device is probed as if by one call
alone.  As soon as one of them has returned, the driver and the devices are
for good as one uninterrupted `init_device` leaves them.  And a core whose own
constructor has returned finds `g_valid` set exactly when there is a disk that
can be used, which is in use then, and reads its capacity, no matter how much
later. -/
theorem probe_once (hdma : dma + 4096 ≤ 2 ^ 64)
    (h : Monitor.Run (constructor Core dma) (.fresh bus) calls log st)
    {later : List (Monitor.Action Core Unit Empty)}
    (hlater : Monitor.follow (constructor Core dma) st later =
      some (calls', log', st')) :
    (log ≠ [] → st'.shared = .after dma bus) ∧
    ∀ core, Constructed log core →
      (st'.shared.valid = true ↔
        ∃ i, firstDisk bus = some i ∧ usable (bus i).fixed = true) ∧
      ∀ i, firstDisk bus = some i → usable (bus i).fixed = true →
        st'.shared.base = slotBase i ∧ Live dma (st'.shared.bus i).setup ∧
        sectorCount st.shared st'.shared = (bus i).fixed.capacity := by
  have hafter (hlog : log ≠ []) : st'.shared = .after dma bus :=
    settled (h.follow hlater) fun hnil =>
      hlog (List.append_eq_nil_iff.mp hnil).1
  refine ⟨hafter, fun core hcore => ?_⟩
  rw [hafter hcore.ne_nil, settled h hcore.ne_nil]
  refine ⟨valid_after_iff, fun i hfirst husable => ?_⟩
  have hlive : Live dma (((initDevice dma).run mmio bus).2 i).setup :=
    live_initDevice bus i hdma
      ((initDevice_eq_some bus i).mpr ⟨hfirst, husable, rfl⟩)
  rw [after_of_usable hfirst husable]
  exact ⟨rfl, hlive, rfl⟩

/-- One core probes while another spins, which then finds it done. -/
theorem probe_once_two_cores :
    ∃ calls log st calls' log' st',
      0x40090000 + 4096 ≤ 2 ^ 64 ∧
      Monitor.Run (constructor Bool 0x40090000) (.fresh (sampleBus 0)) calls log
        st ∧
      Monitor.follow (constructor Bool 0x40090000) st
        [.acquire true, .step true] = some (calls', log', st') ∧
      Constructed log false ∧
      st'.shared = .after 0x40090000 (sampleBus 0) ∧
      st'.shared.base = slotBase 0 ∧
      Live 0x40090000 (st'.shared.bus 0).setup ∧
      sectorCount st.shared st'.shared = 131072 := by
  let start : Monitor.State Bool Unit Place Driver :=
    ⟨.fresh (sampleBus 0), false, fun _ => .outside⟩
  have hfirst : (Monitor.follow (constructor Bool 0x40090000) start
      (.call false () :: .call true () :: .acquire false ::
        List.replicate 31 (.step false))).map (fun r =>
          (r.2.1, (Monitor.follow (constructor Bool 0x40090000) r.2.2
            [.acquire true, .step true]).isSome)) =
        some ([⟨false, (), ()⟩], true) := by decide +kernel
  obtain ⟨⟨calls, log, st⟩, hfollow, heq⟩ := Option.map_eq_some_iff.mp hfirst
  obtain ⟨hlog, hlater⟩ : log = [⟨false, (), ()⟩] ∧
      (Monitor.follow (constructor Bool 0x40090000) st
        [.acquire true, .step true]).isSome = true := by simpa using heq
  obtain ⟨⟨calls', log', st'⟩, hlater⟩ := Option.isSome_iff_exists.mp hlater
  have hcore : Constructed log false := by
    rw [hlog]
    exact ⟨_, List.mem_singleton_self _, rfl⟩
  have hrun := Monitor.Run.init.follow hfollow
  obtain ⟨hsettled, hseen⟩ := probe_once (by decide) hrun hlater
  obtain ⟨hbase, hlive, hcount⟩ :=
    (hseen false hcore).2 0 (by decide +kernel) (by decide +kernel)
  exact ⟨calls, log, st, calls', log', st', by decide, hrun, hlater, hcore,
    hsettled hcore.ne_nil, hbase, hlive, hcount⟩

end Once

end Probe

end DiskReader

end IntroOs
