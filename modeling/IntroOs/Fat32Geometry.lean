/-
What a successful mount guarantees: the exact values of the derived fields,
and that every sector the driver asks for on behalf of a valid cluster exists.
With it the outcome of a disk read is known: a read that succeeds delivers the
disk's bytes, and with all outcomes good every such read succeeds.
-/
import IntroOs.Fat32

namespace IntroOs

open ByteMem

@[simp] theorem allOk_zero : allOk 0 = true := rfl

@[simp] theorem allOk_tail : allOk.tail = allOk := rfl

namespace DiskReader

theorem transfer_allOk (count : Nat) :
    transfer count allOk = (true, count, allOk) := by
  induction count with
  | zero => rfl
  | succ count ih => simp [transfer, ih]

theorem transfer_ok {count : Nat} {io : Outcomes}
    (h : (transfer count io).1 = true) : (transfer count io).2.1 = count := by
  induction count generalizing io with
  | zero => rfl
  | succ count ih =>
      simp only [transfer] at h ⊢
      split at h
      · rename_i hread
        rw [if_pos hread]
        exact congrArg (· + 1) (ih h)
      · cases h

namespace Config

variable {disk : Config} {lba count pos : Nat} {buf : Mem} {io : Outcomes}

theorem readSectors_allOk (hvalid : disk.valid = true)
    (hrange : lba + count ≤ disk.capacity) :
    disk.readSectors lba count buf pos allOk =
      (true, copy buf pos (count * kSectorSize) (disk.byte lba), allOk) := by
  rw [readSectors, if_neg (by simp [hvalid]; omega), transfer_allOk]

/-- The bytes of one sector, as a local buffer holds them. -/
def sectorAt (disk : Config) (lba : Nat) : Mem :=
  copy (fun _ => 0) 0 kSectorSize (disk.byte lba)

theorem sectorAt_apply {k : Nat} (h : k < kSectorSize) :
    disk.sectorAt lba k = disk.byte lba k := by
  simp [sectorAt, copy, h]

theorem byte_add_sectors (disk : Config) (lba s k : Nat) :
    disk.byte (lba + s) k = disk.byte lba (s * kSectorSize + k) := by
  have hdiv : (s * kSectorSize + k) / kSectorSize = s + k / kSectorSize := by
    rw [Nat.add_comm, Nat.add_mul_div_right k s (by decide), Nat.add_comm]
  have hmod : (s * kSectorSize + k) % kSectorSize = k % kSectorSize := by
    rw [Nat.add_comm, Nat.add_mul_mod_self_right]
  simp only [byte, hdiv, hmod, Nat.add_assoc]

theorem readSector_allOk (hvalid : disk.valid = true)
    (hrange : lba + 1 ≤ disk.capacity) :
    disk.readSector lba allOk = (some (disk.sectorAt lba), allOk) := by
  rw [readSector, readSectors_allOk hvalid hrange, Nat.one_mul]
  rfl

/-- A sector that arrives holds the disk's bytes. -/
theorem eq_sectorAt_of_readSector {sector : Mem}
    (h : (disk.readSector lba io).1 = some sector) :
    sector = disk.sectorAt lba := by
  simp only [readSector, readSectors] at h
  split at h
  · rename_i s io' heq
    split at heq
    · cases heq
    · cases h
      obtain ⟨hok, hs, -⟩ := Prod.ext_iff.mp heq |>.imp_right Prod.ext_iff.mp
      simp only at hok hs
      rw [← hs, transfer_ok hok, Nat.one_mul]
      rfl
  · cases h

end Config

end DiskReader

namespace Fat32

open DiskReader

/-- The geometry a mount has checked. -/
structure Geometry (disk : Config) (m : Fat32Metadata) : Prop where
  disk_valid : disk.valid = true
  sectorsPerCluster_pos : 0 < m.sectorsPerCluster
  powerOfTwo : m.sectorsPerCluster &&& (m.sectorsPerCluster - 1) = 0
  sectorsPerCluster_lt : m.sectorsPerCluster < 2 ^ 8
  numFats_pos : 0 < m.numFats
  reservedSectors_pos : 0 < m.reservedSectors
  sectorsPerFat_pos : 0 < m.sectorsPerFat
  dataStart_eq :
    m.dataStartSector = m.reservedSectors + m.numFats * m.sectorsPerFat
  dataStart_lt : m.dataStartSector < m.totalSectors
  totalSectors_lt : m.totalSectors < 2 ^ 32
  totalSectors_le : m.totalSectors ≤ disk.capacity
  clusterCount_eq : m.clusterCount =
    (m.totalSectors - m.dataStartSector) / m.sectorsPerCluster
  root_valid : m.validCluster m.rootCluster = true

theorem le16_lt (p : Mem) (off : Nat) : le16 p off < 2 ^ 16 := load_lt p off 2

theorem le32_lt (p : Mem) (off : Nat) : le32 p off < 2 ^ 32 := load_lt p off 4

theorem bootFields_totalSectors_lt (sector : Mem) :
    (bootFields sector).totalSectors < 2 ^ 32 := by
  have h16 := le16_lt sector 19
  have h32 := le32_lt sector 32
  simp only [bootFields]
  split <;> omega

theorem isFat32_sectorsPerFat {sector : Mem} (h : isFat32 sector = true) :
    0 < (bootFields sector).sectorsPerFat := by
  simp only [isFat32, Bool.and_eq_true, bne_iff_ne] at h
  exact Nat.pos_of_ne_zero h.1.2

/-- What `geometry` accepts, and what it fills in. -/
theorem geometry_some {m m' : Fat32Metadata} {sectors : Nat}
    (h : geometry m sectors = some m') (htotal : m.totalSectors < 2 ^ 32) :
    m.sectorsPerCluster ≠ 0 ∧
    m.sectorsPerCluster &&& (m.sectorsPerCluster - 1) = 0 ∧
    m.numFats ≠ 0 ∧ m.reservedSectors ≠ 0 ∧
    m.reservedSectors + m.numFats * m.sectorsPerFat < m.totalSectors ∧
    m.totalSectors ≤ sectors ∧
    m'.validCluster m.rootCluster = true ∧
    m' = { m with
      dataStartSector := m.reservedSectors + m.numFats * m.sectorsPerFat
      clusterCount := (m.totalSectors -
        (m.reservedSectors + m.numFats * m.sectorsPerFat)) /
          m.sectorsPerCluster } := by
  simp only [geometry] at h
  split at h
  · cases h
  rename_i hfields
  split at h
  · cases h
  rename_i hsize
  simp only [not_or, ne_eq, Decidable.not_not, ge_iff_le, gt_iff_lt,
    Nat.not_le, Nat.not_lt] at hfields hsize
  obtain ⟨hspc, hpower, hfats, hreserved⟩ := hfields
  obtain ⟨hstart, hsectors⟩ := hsize
  have hcount : (m.totalSectors -
      (m.reservedSectors + m.numFats * m.sectorsPerFat)) /
        m.sectorsPerCluster < 2 ^ 32 :=
    Nat.lt_of_le_of_lt (Nat.div_le_self _ _) (by omega)
  rw [Nat.mod_eq_of_lt (by omega), Nat.mod_eq_of_lt hcount] at h
  split at h
  · rename_i hroot
    cases h
    exact ⟨hspc, hpower, hfats, hreserved, hstart, hsectors, hroot, rfl⟩
  · cases h

/-- A mount goes through the boot sector's tests and the geometry; only the
free-cluster hint comes from elsewhere. -/
theorem mount_some {disk : Config} {io : Outcomes} {m : Fat32Metadata}
    (h : (mount disk io).1 = some m) :
    disk.valid = true ∧ ∃ sector m₀ hint, isFat32 sector = true ∧
      geometry (bootFields sector) disk.sectorCount = some m₀ ∧
      m = { m₀ with freeClustersHint := hint } := by
  simp only [mount] at h
  split at h
  · cases h
  rename_i hvalid
  refine ⟨by simpa using hvalid, ?_⟩
  split at h
  · cases h
  rename_i sector io' _
  split at h
  · rename_i hboot
    split at h
    · cases h
    · rename_i m₀ hgeometry
      cases h
      exact ⟨sector, m₀, _, hboot, hgeometry, rfl⟩
  · cases h

theorem mount_geometry {disk : Config} {io : Outcomes} {m : Fat32Metadata}
    (h : (mount disk io).1 = some m) : Geometry disk m := by
  obtain ⟨hvalid, sector, m₀, hint, hboot, hgeometry, rfl⟩ := mount_some h
  have htotal := bootFields_totalSectors_lt sector
  obtain ⟨hspc, hpower, hfats, hreserved, hstart, hsectors, hroot, rfl⟩ :=
    geometry_some hgeometry htotal
  rw [Config.sectorCount, if_pos hvalid] at hsectors
  exact
    { disk_valid := hvalid
      sectorsPerCluster_pos := Nat.pos_of_ne_zero hspc
      powerOfTwo := hpower
      sectorsPerCluster_lt := (sector 13).toNat_lt
      numFats_pos := Nat.pos_of_ne_zero hfats
      reservedSectors_pos := Nat.pos_of_ne_zero hreserved
      sectorsPerFat_pos := isFat32_sectorsPerFat hboot
      dataStart_eq := rfl
      dataStart_lt := hstart
      totalSectors_lt := htotal
      totalSectors_le := hsectors
      clusterCount_eq := rfl
      root_valid := hroot }

section Volume

variable (v : Fat32)

theorem geometryOf : Geometry v.disk v.metadata := by
  obtain ⟨io, h⟩ := v.mounted
  exact mount_geometry h

/-- There are at least two sectors in front of the data region. -/
theorem two_le_dataStart : 2 ≤ v.metadata.dataStartSector := by
  have g := geometryOf v
  have hfats : 0 < v.metadata.numFats * v.metadata.sectorsPerFat :=
    Nat.mul_pos g.numFats_pos g.sectorsPerFat_pos
  have hreserved := g.reservedSectors_pos
  rw [g.dataStart_eq]
  omega

/-- The clusters fill no more than the data region. -/
theorem clusters_fit :
    v.metadata.dataStartSector +
      v.metadata.clusterCount * v.metadata.sectorsPerCluster ≤
        v.metadata.totalSectors := by
  have g := geometryOf v
  have hdiv := Nat.div_mul_le_self
    (v.metadata.totalSectors - v.metadata.dataStartSector)
    v.metadata.sectorsPerCluster
  have hlt := g.dataStart_lt
  rw [g.clusterCount_eq]
  omega

theorem clusterCount_le :
    v.metadata.dataStartSector + v.metadata.clusterCount ≤
      v.metadata.totalSectors := by
  have hfit := clusters_fit v
  have hmul := Nat.le_mul_of_pos_right v.metadata.clusterCount
    (geometryOf v).sectorsPerCluster_pos
  omega

theorem clusterCount_add_two_lt : v.metadata.clusterCount + 2 < 2 ^ 32 := by
  have hcount := clusterCount_le v
  have hstart := two_le_dataStart v
  have htotal := (geometryOf v).totalSectors_lt
  omega

theorem clusterBytes_pos : 0 < v.metadata.clusterBytes :=
  Nat.mul_pos (geometryOf v).sectorsPerCluster_pos (by decide)

variable {v} {c : Nat}

theorem validCluster_iff : v.metadata.validCluster c = true ↔
    2 ≤ c ∧ c < v.metadata.clusterCount + 2 := by
  rw [Fat32Metadata.validCluster,
    Nat.mod_eq_of_lt (clusterCount_add_two_lt v)]
  simp

theorem clusterLba_eq (h : v.metadata.validCluster c = true) :
    v.metadata.clusterLba c = v.metadata.dataStartSector +
      (c - 2) * v.metadata.sectorsPerCluster := by
  have hc := validCluster_iff.mp h
  have hcount := clusterCount_add_two_lt v
  rw [Fat32Metadata.clusterLba,
    show c + (2 ^ 32 - 2) = c - 2 + 2 ^ 32 by omega, Nat.add_mod_right,
    Nat.mod_eq_of_lt (by omega)]

/-- A cluster ends where the next one starts. -/
theorem clusterLba_add (h : v.metadata.validCluster c = true) :
    v.metadata.clusterLba c + v.metadata.sectorsPerCluster =
      v.metadata.dataStartSector +
        (c - 2 + 1) * v.metadata.sectorsPerCluster := by
  rw [clusterLba_eq h, Nat.succ_mul, Nat.add_assoc]

/-- The sectors of a valid cluster lie in the data region. -/
theorem cluster_within (h : v.metadata.validCluster c = true) :
    v.metadata.dataStartSector ≤ v.metadata.clusterLba c ∧
      v.metadata.clusterLba c + v.metadata.sectorsPerCluster ≤
        v.metadata.totalSectors := by
  refine ⟨Nat.le_add_right _ _, ?_⟩
  have hc := validCluster_iff.mp h
  rw [clusterLba_add h]
  calc v.metadata.dataStartSector + (c - 2 + 1) * v.metadata.sectorsPerCluster
      ≤ v.metadata.dataStartSector +
          v.metadata.clusterCount * v.metadata.sectorsPerCluster :=
        Nat.add_le_add_left (Nat.mul_le_mul_right _ (by omega)) _
    _ ≤ v.metadata.totalSectors := clusters_fit v

/-- The sectors of a valid cluster exist. -/
theorem cluster_inRange {s : Nat} (h : v.metadata.validCluster c = true)
    (hs : s ≤ v.metadata.sectorsPerCluster) :
    v.metadata.clusterLba c + s ≤ v.disk.capacity := by
  have hwithin := (cluster_within h).2
  have htotal := (geometryOf v).totalSectors_le
  omega

/-- The sector `fat_next` asks for. -/
def fatSector (v : Fat32) (cluster : Nat) : Nat :=
  v.metadata.reservedSectors + cluster * 4 % 2 ^ 32 / kSector

/-- The link `fat_next` finds on the disk. -/
def fatLink (v : Fat32) (cluster : Nat) : Nat :=
  le32 (v.disk.sectorAt (fatSector v cluster))
    (cluster * 4 % 2 ^ 32 % kSector) % 2 ^ 28

/-- The FAT sector of a valid cluster exists, even where the FAT is too short
for the data region. -/
theorem fatSector_inRange (h : v.metadata.validCluster c = true) :
    fatSector v c + 1 ≤ v.disk.capacity := by
  have g := geometryOf v
  have hc := validCluster_iff.mp h
  have hcount := clusterCount_le v
  have hfats : 0 < v.metadata.numFats * v.metadata.sectorsPerFat :=
    Nat.mul_pos g.numFats_pos g.sectorsPerFat_pos
  have hstart := g.dataStart_eq
  have htotal := g.totalSectors_le
  have hmod := Nat.mod_le (c * 4) (2 ^ 32)
  have hdiv : c * 4 % 2 ^ 32 / kSector ≤ c * 4 / kSector :=
    Nat.div_le_div_right hmod
  have hsmall : c * 4 / kSector ≤ c - 2 + 1 := by
    simp only [kSector, kSectorSize]
    omega
  rw [fatSector]
  omega

theorem fatNext_allOk (h : v.metadata.validCluster c = true) :
    fatNext v c allOk = (some (fatLink v c), allOk) := by
  have hread := Config.readSector_allOk (geometryOf v).disk_valid
    (fatSector_inRange h)
  simp only [fatSector] at hread
  simp only [fatNext, hread]
  rfl

/-- A link that is read at all is the one on the disk. -/
theorem eq_fatLink_of_fatNext {io io' : Outcomes} {next : Nat}
    (h : fatNext v c io = (some next, io')) : next = fatLink v c := by
  simp only [fatNext] at h
  split at h
  · cases h
  · rename_i sector io'' hread
    cases h
    rw [Config.eq_sectorAt_of_readSector (congrArg Prod.fst hread)]
    rfl

end Volume

end Fat32

end IntroOs
