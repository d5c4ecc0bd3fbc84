/-
How far the FAT can be trusted.  A mount compares neither the size of the FAT
nor the range of cluster numbers with the clusters it counts, so on odd or
very large volumes `fat_next` leaves the first copy, its 32-bit offset wraps,
and end-of-chain markers pass for clusters.  Three bounds say exactly on which
volumes none of this happens.
-/
import IntroOs.Fat32Read

namespace IntroOs

open ByteMem

namespace Fat32

open DiskReader

/-- The FAT entry of a cluster: the word at byte `4 * cluster` of the first
FAT copy, without its top four bits. -/
def fatWord (v : Fat32) (cluster : Nat) : Nat :=
  load (v.disk.byte v.metadata.reservedSectors) (4 * cluster) 4 % 2 ^ 28

/-- The byte of the first FAT copy at which `fat_next` takes its word. -/
def fatOffset (cluster : Nat) : Nat := cluster * 4 % 2 ^ 32

section Exact

variable {v : Fat32} {c : Nat}

/-- Where `fat_next` reads: the sector of a 32-bit offset into the first FAT
copy, and in it the word at that offset. -/
theorem fatNext_eq (v : Fat32) (c : Nat) (io : Outcomes) :
    fatNext v c io =
      ((v.disk.readSector (v.metadata.reservedSectors +
          fatOffset c / kSector) io).1.map fun sector =>
            le32 sector (fatOffset c % kSector) % 2 ^ 28,
        (v.disk.readSector (v.metadata.reservedSectors +
          fatOffset c / kSector) io).2) := by
  simp only [fatNext, fatOffset]
  cases v.disk.readSector
      (v.metadata.reservedSectors + c * 4 % 2 ^ 32 / kSector) io with
  | mk r io => cases r <;> rfl

theorem fatOffset_eq_iff (hc : c < 2 ^ 32) :
    fatOffset c = 4 * c ↔ c < 2 ^ 30 := by
  unfold fatOffset
  omega

/-- Where the offset does not wrap, the link is the FAT's word. -/
theorem fatLink_eq_fatWord (hc : c * 4 < 2 ^ 32) :
    fatLink v c = fatWord v c := by
  have hoff : c * 4 % kSector + 4 ≤ kSector := by
    simp only [kSector, kSectorSize]
    omega
  have hsector : load (v.disk.sectorAt (v.metadata.reservedSectors +
      c * 4 / kSector)) (c * 4 % kSector) 4 =
      load (fun k => v.disk.byte v.metadata.reservedSectors
        (c * 4 / kSector * kSector + k)) (c * 4 % kSector) 4 := by
    apply load_congr
    intro k _ hk
    rw [Config.sectorAt_apply (Nat.lt_of_lt_of_le hk hoff),
      Config.byte_add_sectors]
    rfl
  rw [fatLink, fatWord, fatSector, Nat.mod_eq_of_lt hc, le32, hsector,
    load_shift, Nat.mul_comm _ kSector, Nat.div_add_mod, Nat.mul_comm 4 c]

/-- Cluster numbers that agree in their low thirty bits share a link. -/
theorem fatLink_mod (v : Fat32) (c : Nat) :
    fatLink v c = fatLink v (c % 2 ^ 30) := by
  have hoff : c * 4 % 2 ^ 32 = c % 2 ^ 30 * 4 % 2 ^ 32 := by omega
  rw [fatLink, fatLink, fatSector, fatSector, hoff]

theorem mul_four_lt (hbound : v.metadata.clusterCount + 2 ≤ kEndOfChain)
    (hhi : c < v.metadata.clusterCount + 2) : c * 4 < 2 ^ 32 := by
  simp only [kEndOfChain] at hbound
  omega

end Exact

/-- A volume has a cluster, the one its root directory starts at. -/
theorem clusterCount_pos (v : Fat32) : 0 < v.metadata.clusterCount := by
  have hroot := (validCluster_iff (v := v)).mp (geometryOf v).root_valid
  omega

/-- `fat_next` stays in the first FAT copy for all clusters of a volume exactly
when that copy has an entry for every cluster below `2^30`, from where on the
offset wraps around. -/
theorem fatNext_in_first_copy_iff (v : Fat32) :
    (∀ c io, fatNext v c io =
      ((v.disk.readSector (fatSector v c) io).1.map fun sector =>
          le32 sector (fatOffset c % kSector) % 2 ^ 28,
        (v.disk.readSector (fatSector v c) io).2)) ∧
    ((∀ c, v.metadata.validCluster c = true →
        v.metadata.reservedSectors ≤ fatSector v c ∧
        fatSector v c <
          v.metadata.reservedSectors + v.metadata.sectorsPerFat) ↔
      4 * min (v.metadata.clusterCount + 2) (2 ^ 30) ≤
        kSector * v.metadata.sectorsPerFat) := by
  have hpos := clusterCount_pos v
  refine ⟨fatNext_eq v, fun hinside => ?_, fun hfat c hvalid => ?_⟩
  · -- the last cluster whose offset does not wrap
    have hlast : v.metadata.validCluster
        (min (v.metadata.clusterCount + 2) (2 ^ 30) - 1) = true :=
      validCluster_iff.mpr (by omega)
    have hlt := (hinside _ hlast).2
    simp only [fatSector, kSector, kSectorSize] at hlt ⊢
    omega
  · have hc := validCluster_iff.mp hvalid
    simp only [fatSector, kSector, kSectorSize] at hfat ⊢
    omega

/-- A volume of 200 sectors with one FAT of one sector, room for 128 entries,
and 198 clusters.  Its root directory holds a single file. -/
def shortFatSector : Nat → List (Nat × List UInt8)
  | 0 => [(11, [0x00, 0x02, 0x01, 0x01, 0x00, 0x01]), (32, [0xC8]),
      (36, [0x01]), (44, [0x02]),
      (82, [0x46, 0x41, 0x54, 0x33, 0x32, 0x20, 0x20, 0x20]),
      (510, [0x55, 0xAA])]
  | 1 => [(0, [0xF8, 0xFF, 0xFF, 0x0F, 0xFF, 0xFF, 0xFF, 0x0F,
      0xFF, 0xFF, 0xFF, 0x0F])]
  | 2 => [(0, layShort [0x52, 0x45, 0x41, 0x44, 0x4D, 0x45, 0x20, 0x20, 0x20,
      0x20, 0x20] 0x00 0 [0, 0, 0, 0])]
  | _ => []

def shortFatDisk : Config :=
  { valid := true, capacity := 200, capacity_lt := by decide,
    disk := fun lba i => layout (shortFatSector lba) i }

def shortFat : Fat32 :=
  { disk := shortFatDisk
    metadata :=
      { bytesPerSector := 512, sectorsPerCluster := 1, reservedSectors := 1,
        numFats := 1, sectorsPerFat := 1, rootCluster := 2,
        totalSectors := 200, dataStartSector := 2, clusterCount := 198,
        volumeId := 0, label := List.replicate 11 0,
        freeClustersHint := 0xFFFFFFFF }
    mounted := ⟨allOk, by decide +kernel⟩ }

/-- The link of cluster 130 comes out of the root directory: it is made of the
file's extension and attributes. -/
theorem shortFat_reads_data :
    shortFat.metadata.validCluster 130 = true ∧
    fatSector shortFat 130 =
      shortFat.metadata.reservedSectors + shortFat.metadata.sectorsPerFat ∧
    fatSector shortFat 130 =
      shortFat.metadata.clusterLba shortFat.metadata.rootCluster ∧
    (fatNext shortFat 130 allOk).1 = some 0x00202020 := by
  decide +kernel

/-- The sample volume's FAT is long enough, and that of the other one is not. -/
theorem fatNext_in_first_copy_iff_sample :
    fatSector sample 3 <
      sample.metadata.reservedSectors + sample.metadata.sectorsPerFat ∧
    ¬ ∀ c, shortFat.metadata.validCluster c = true →
      shortFat.metadata.reservedSectors ≤ fatSector shortFat c ∧
      fatSector shortFat c <
        shortFat.metadata.reservedSectors +
          shortFat.metadata.sectorsPerFat := by
  constructor
  · exact ((fatNext_in_first_copy_iff sample).2.mpr (by decide) 3
      (by decide)).2
  · rw [(fatNext_in_first_copy_iff shortFat).2]
    decide

/-- On a volume whose first FAT copy has room for all entries, the offsets of
`fat_next` are right for all clusters exactly when there are at most `2^30`
entries.  A link that is read at all is the word at byte `4 * c` when `c` is
below `2^30`, and otherwise that of the cluster `2^30` further down. -/
theorem fatNext_exact_iff (v : Fat32)
    (hfat : 4 * (v.metadata.clusterCount + 2) ≤
      kSector * v.metadata.sectorsPerFat) :
    ((∀ c, v.metadata.validCluster c = true → fatOffset c = 4 * c) ↔
      v.metadata.clusterCount + 2 ≤ 2 ^ 30) ∧
    ∀ c, v.metadata.validCluster c = true → ∀ io io' next,
      fatNext v c io = (some next, io') →
        next = fatWord v (c % 2 ^ 30) ∧
        (c < 2 ^ 30 → 4 * c + 4 ≤ kSector * v.metadata.sectorsPerFat ∧
          next = fatWord v c) := by
  have hcount := clusterCount_add_two_lt v
  refine ⟨⟨fun hexact => ?_, fun hsmall c hvalid => ?_⟩,
    fun c hvalid io io' next hread => ?_⟩
  · by_contra hlarge
    have hwraps := hexact (2 ^ 30) (validCluster_iff.mpr (by omega))
    rw [fatOffset_eq_iff (by decide)] at hwraps
    exact Nat.lt_irrefl _ hwraps
  · have hc := validCluster_iff.mp hvalid
    exact (fatOffset_eq_iff (by omega)).mpr (by omega)
  · have hc := validCluster_iff.mp hvalid
    have hword : next = fatWord v (c % 2 ^ 30) := by
      rw [eq_fatLink_of_fatNext hread, fatLink_mod,
        fatLink_eq_fatWord (by omega)]
    refine ⟨hword, fun hlt => ⟨by omega, ?_⟩⟩
    rwa [Nat.mod_eq_of_lt hlt] at hword

/-- A disk of `2^31` sectors with one-sector clusters and a FAT that has room
for all of them.  The root directory starts at cluster `2^30`, where the FAT
has a zero. -/
def hugeSector (lba : Nat) : List (Nat × List UInt8) :=
  if lba = 0 then
    [(11, [0x00, 0x02, 0x01, 0x01, 0x00, 0x01]),
      (32, [0x00, 0x00, 0x00, 0x80]), (36, [0x00, 0x00, 0x00, 0x01]),
      (44, [0x00, 0x00, 0x00, 0x40]),
      (82, [0x46, 0x41, 0x54, 0x33, 0x32, 0x20, 0x20, 0x20]),
      (510, [0x55, 0xAA])]
  else if lba = 1 then
    [(0, [0xF8, 0xFF, 0xFF, 0x0F, 0xFF, 0xFF, 0xFF, 0x0F,
      0xFF, 0xFF, 0xFF, 0x0F])]
  else []

def hugeDisk : Config :=
  { valid := true, capacity := 2 ^ 31, capacity_lt := by decide,
    disk := fun lba i => layout (hugeSector lba) i }

def huge : Fat32 :=
  { disk := hugeDisk
    metadata :=
      { bytesPerSector := 512, sectorsPerCluster := 1, reservedSectors := 1,
        numFats := 1, sectorsPerFat := 2 ^ 24, rootCluster := 2 ^ 30,
        totalSectors := 2 ^ 31, dataStartSector := 1 + 2 ^ 24,
        clusterCount := 2 ^ 31 - 2 ^ 24 - 1,
        volumeId := 0, label := List.replicate 11 0,
        freeClustersHint := 0xFFFFFFFF }
    mounted := ⟨allOk, by decide +kernel⟩ }

/-- The offset of the root's entry wraps to 0: `fat_next` returns the media
descriptor in place of the zero that the FAT holds for the root. -/
theorem huge_wraps :
    4 * (huge.metadata.clusterCount + 2) ≤
      kSector * huge.metadata.sectorsPerFat ∧
    huge.metadata.validCluster huge.metadata.rootCluster = true ∧
    (fatNext huge huge.metadata.rootCluster allOk).1 = some 0x0FFFFFF8 ∧
    fatWord huge huge.metadata.rootCluster = 0 := by
  decide +kernel

theorem fatNext_exact_iff_sample :
    (fatNext sample 3 allOk).1 = some 5 ∧ fatWord sample 3 = 5 ∧
    ¬ ∀ c, huge.metadata.validCluster c = true → fatOffset c = 4 * c := by
  have hread : (fatNext sample 3 allOk).1 = some 5 := by decide +kernel
  have hexact := ((fatNext_exact_iff sample (by decide)).2 3 (by decide) allOk _
    5 (Prod.ext hread rfl)).2 (by decide)
  refine ⟨hread, hexact.2.symm, ?_⟩
  rw [(fatNext_exact_iff huge (by decide)).1]
  decide

/-- A marker that is no cluster ends every walk along a chain. -/
theorem ends_of_invalid {v : Fat32} {c : Nat}
    (hinvalid : v.metadata.validCluster c = false) :
    (∀ name hops lfn io, scanChain v name hops c lfn io = (none, io)) ∧
    (∀ hops io, File.walk v (hops + 1) c io = (none, io)) ∧
    (∀ (f : File) index io io', f.locate v index io ≠ (some c, io')) := by
  refine ⟨?_, ?_, ?_⟩
  · intro name hops lfn io
    cases hops with
    | zero => rfl
    | succ hops => rw [scanChain, if_neg (by rw [hinvalid]; decide)]
  · intro hops io
    rw [File.walk, if_neg (by rw [hinvalid]; decide)]
  · intro f index io io' hlocate
    have hvalid := File.locate_valid hlocate
    rw [hinvalid] at hvalid
    cases hvalid

/-- The end-of-chain markers are no clusters, so that every walk along a chain
ends at one, exactly on the volumes without clusters in the range of the
markers. -/
theorem markers_end_chains_iff (v : Fat32) :
    (∀ c, kEndOfChain ≤ c → c ≤ 0x0FFFFFFF →
      v.metadata.validCluster c = false ∧
      (∀ name hops lfn io, scanChain v name hops c lfn io = (none, io)) ∧
      (∀ hops io, File.walk v (hops + 1) c io = (none, io)) ∧
      (∀ (f : File) index io io', f.locate v index io ≠ (some c, io'))) ↔
    v.metadata.clusterCount + 2 ≤ kEndOfChain := by
  constructor
  · intro hends
    by_contra hlarge
    have hvalid : v.metadata.validCluster kEndOfChain = true :=
      validCluster_iff.mpr ⟨by decide, by omega⟩
    rw [(hends kEndOfChain (Nat.le_refl _) (by decide)).1] at hvalid
    cases hvalid
  · intro hsmall c hlo hhi
    have hinvalid : v.metadata.validCluster c = false := by
      rw [← Bool.not_eq_true, validCluster_iff]
      omega
    exact ⟨hinvalid, ends_of_invalid hinvalid⟩

/-- Cluster 2 of the huge volume is the last of its chain, and a walk goes on
behind the marker. -/
theorem huge_accepts_marker :
    kEndOfChain ≤ 0x0FFFFFFF ∧
    huge.metadata.validCluster 0x0FFFFFFF = true ∧
    (fatNext huge 2 allOk).1 = some 0x0FFFFFFF ∧
    (File.walk huge 2 2 allOk).1 = some 0 := by
  decide +kernel

theorem markers_end_chains_iff_sample :
    sample.metadata.validCluster 0x0FFFFFFF = false ∧
    (∀ io, File.walk sample 1 0x0FFFFFFF io = (none, io)) ∧
    ¬ huge.metadata.clusterCount + 2 ≤ kEndOfChain := by
  obtain ⟨hvalid, -, hwalk, -⟩ := (markers_end_chains_iff sample).mpr
    (by decide) 0x0FFFFFFF (by decide) (by decide)
  exact ⟨hvalid, hwalk 0, by decide⟩

end Fat32

end IntroOs
