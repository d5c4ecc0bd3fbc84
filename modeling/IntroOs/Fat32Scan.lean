/-
Directory scans and path resolution without the disk in between.  `lookup`
amounts to one pass over the entries of the clusters it visits, and a scan or
a resolution that succeeds under any outcomes of the disk reads is the one of
a disk that never fails.
-/
import IntroOs.Fat32Geometry

namespace IntroOs

open ByteMem

namespace Fat32

open DiskReader

variable {v : Fat32} {name : List UInt8} {io io' : Outcomes}

/-- Go on with the scan behind entries that did not end it. -/
def Scan.andThen : Scan → (Lfn → Scan) → Scan
  | .more lfn, k => k lfn
  | .stop, _ => .stop
  | .found entry, _ => .found entry

/-- The entry a scan has arrived at. -/
def Scan.result : Scan → Option Entry
  | .found entry => some entry
  | _ => none

theorem scanEntries_cons (e : Mem) (rest : List Mem) (lfn : Lfn) :
    scanEntries name (e :: rest) lfn =
      (scanEntry name lfn e).andThen (scanEntries name rest) := by
  rw [scanEntries]
  cases scanEntry name lfn e <;> rfl

theorem scanEntries_append (front back : List Mem) (lfn : Lfn) :
    scanEntries name (front ++ back) lfn =
      (scanEntries name front lfn).andThen (scanEntries name back) := by
  induction front generalizing lfn with
  | nil => rfl
  | cons e front ih =>
      rw [List.cons_append, scanEntries_cons, scanEntries_cons]
      cases scanEntry name lfn e with
      | more lfn => exact ih lfn
      | stop => rfl
      | found entry => rfl

/-- The entries of `n` sectors from `lba` on. -/
def sectorEntries (v : Fat32) (lba n : Nat) : List Mem :=
  (List.range' lba n).flatMap fun s => entries (v.disk.sectorAt s)

theorem sectorEntries_succ (lba n : Nat) :
    sectorEntries v lba (n + 1) =
      entries (v.disk.sectorAt lba) ++ sectorEntries v (lba + 1) n := by
  simp [sectorEntries, List.range'_succ]

/-- The entries of a cluster. -/
def clusterEntries (v : Fat32) (cluster : Nat) : List Mem :=
  sectorEntries v (v.metadata.clusterLba cluster) v.metadata.sectorsPerCluster

/-- The entries of the clusters that `lookup` may visit, in order. -/
def visited (v : Fat32) : Nat → Nat → List Mem
  | 0, _ => []
  | hops + 1, cluster =>
      if v.metadata.validCluster cluster then
        clusterEntries v cluster ++ visited v hops (fatLink v cluster)
      else []

/-- The entries of a directory as `lookup` sees them. -/
def directory (v : Fat32) (dirCluster : Nat) : List Mem :=
  visited v (v.metadata.clusterCount + 1) dirCluster

theorem scanSectors_allOk {lba n : Nat} (lfn : Lfn)
    (hrange : lba + n ≤ v.disk.capacity) :
    scanSectors v name n lba lfn allOk =
      (scanEntries name (sectorEntries v lba n) lfn, allOk) := by
  induction n generalizing lba lfn with
  | zero => rfl
  | succ n ih =>
      rw [scanSectors, Config.readSector_allOk (geometryOf v).disk_valid
        (by omega), sectorEntries_succ, scanEntries_append]
      cases h : scanEntries name (entries (v.disk.sectorAt lba)) lfn with
      | more lfn => simpa only [h, Scan.andThen] using ih lfn (by omega)
      | stop => simp only [h, Scan.andThen]
      | found entry => simp only [h, Scan.andThen]

/-- Sectors that were scanned to some end other than an abort were all
read. -/
theorem scanSectors_agree {lba n : Nat} {lfn : Lfn} {r : Scan}
    (h : scanSectors v name n lba lfn io = (r, io')) (hr : r ≠ .stop) :
    scanEntries name (sectorEntries v lba n) lfn = r := by
  induction n generalizing lba lfn io with
  | zero => exact congrArg Prod.fst h
  | succ n ih =>
      rw [scanSectors] at h
      split at h
      · cases h
        exact absurd rfl hr
      rename_i sector io₁ hread
      have hsector :=
        Config.eq_sectorAt_of_readSector (congrArg Prod.fst hread)
      subst hsector
      rw [sectorEntries_succ, scanEntries_append]
      split at h
      · rename_i lfn₁ hscan
        rw [hscan]
        exact ih h
      · rename_i hmore
        cases h
        cases hscan :
            scanEntries name (entries (v.disk.sectorAt lba)) lfn with
        | more lfn₁ => exact absurd hscan (hmore lfn₁)
        | stop => rfl
        | found entry => rfl

theorem scanChain_allOk (hops cluster : Nat) (lfn : Lfn) :
    scanChain v name hops cluster lfn allOk =
      ((scanEntries name (visited v hops cluster) lfn).result, allOk) := by
  induction hops generalizing cluster lfn with
  | zero => rfl
  | succ hops ih =>
      rw [scanChain, visited]
      split
      · rename_i hvalid
        rw [scanSectors_allOk lfn (cluster_inRange hvalid (Nat.le_refl _)),
          scanEntries_append, ← clusterEntries]
        cases h : scanEntries name (clusterEntries v cluster) lfn with
        | more lfn =>
            simp only [fatNext_allOk hvalid, Scan.andThen]
            exact ih (fatLink v cluster) lfn
        | stop => rfl
        | found entry => rfl
      · rfl

theorem scanChain_agree {hops cluster : Nat} {lfn : Lfn} {entry : Entry}
    (h : scanChain v name hops cluster lfn io = (some entry, io')) :
    scanEntries name (visited v hops cluster) lfn = .found entry := by
  induction hops generalizing cluster lfn io with
  | zero => cases h
  | succ hops ih =>
      rw [scanChain] at h
      split at h
      · rename_i hvalid
        rw [visited, if_pos hvalid, scanEntries_append, clusterEntries]
        split at h
        · cases h
        · rename_i e io₁ hscan
          cases h
          rw [scanSectors_agree hscan (by simp)]
          rfl
        · rename_i lfn₁ io₁ hscan
          rw [scanSectors_agree hscan (by simp)]
          split at h
          · cases h
          · rename_i next io₂ hnext
            rw [Scan.andThen, ← eq_fatLink_of_fatNext hnext]
            exact ih h
      · cases h

/-- `lookup` on a disk that never fails is one pass over the directory. -/
theorem lookup_allOk (dirCluster : Nat) (out : Entry) :
    lookup v dirCluster name out allOk =
      match (scanEntries name (directory v dirCluster) Lfn.start).result with
      | some entry => (true, entry, allOk)
      | none => (false, out, allOk) := by
  rw [lookup, scanChain_allOk, ← directory]
  cases (scanEntries name (directory v dirCluster) Lfn.start).result <;> rfl

/-- A `lookup` that returns true has read all it needed. -/
theorem lookup_true {dirCluster : Nat} {out entry : Entry}
    (h : lookup v dirCluster name out io = (true, entry, io')) :
    scanEntries name (directory v dirCluster) Lfn.start = .found entry := by
  rw [lookup] at h
  split at h
  · rename_i e io₁ hscan
    cases h
    exact scanChain_agree hscan
  · cases h

theorem lookup_agree {dirCluster : Nat} {out entry : Entry}
    (h : lookup v dirCluster name out io = (true, entry, io')) :
    lookup v dirCluster name out allOk = (true, entry, allOk) := by
  rw [lookup_allOk, lookup_true h]
  rfl

theorem findLoop_agree {fuel : Nat} {p : List UInt8} {cur entry : Entry}
    (h : findLoop v fuel p cur io = some (some entry, io')) :
    findLoop v fuel p cur allOk = some (some entry, allOk) := by
  induction fuel generalizing p cur io with
  | zero => cases h
  | succ fuel ih =>
      simp only [findLoop] at h ⊢
      split at h
      · rename_i hend
        cases h
        rw [if_pos hend]
      rename_i hend
      rw [if_neg hend]
      split at h
      · cases h
      rename_i hdir
      rw [if_neg hdir]
      split at h
      · cases h
      rename_i hlen
      rw [if_neg hlen]
      split at h
      · cases h
      · rename_i cur₁ io₁ hlookup
        simp only [lookup_agree hlookup]
        exact ih h

theorem head_not_slash {p : List UInt8} (h : p.dropWhile (· = slash) ≠ []) :
    ∃ c rest, p.dropWhile (· = slash) = c :: rest ∧ c ≠ slash := by
  obtain ⟨c, rest, hp⟩ := List.exists_cons_of_ne_nil h
  refine ⟨c, rest, hp, ?_⟩
  have hhead := List.head_dropWhile_not (· = slash) (l := p) h
  simp only [hp, List.head_cons] at hhead
  simpa using hhead

/-- What is left of a path behind its first component is shorter. -/
theorem length_dropWhile_lt {p : List UInt8}
    (h : p.dropWhile (· = slash) ≠ []) :
    ((p.dropWhile (· = slash)).dropWhile (· ≠ slash)).length < p.length := by
  have hskip := (List.dropWhile_suffix (· = slash) (l := p)).length_le
  obtain ⟨c, rest, hp, hc⟩ := head_not_slash h
  have hname := (List.dropWhile_suffix (· ≠ slash) (l := rest)).length_le
  rw [hp, List.length_cons] at hskip
  rw [hp, List.dropWhile_cons_of_pos (by simpa using hc)]
  omega

/-- A handle `find` returns stands for nothing, or for the entry that the
disk's bytes lead to. -/
theorem find_valid {path : Option CString} {f : File}
    (h : find v path io = some (f, io')) (hvalid : f.valid = true) :
    ∃ entry, f = fileOf v entry ∧
      find v path allOk = some (fileOf v entry, allOk) := by
  rw [find.eq_def] at h
  split at h
  · cases h
    cases hvalid
  · split at h
    · cases h
    · cases h
      cases hvalid
    · rename_i path entry io₁ hloop
      cases h
      exact ⟨entry, rfl, by simp only [find, findLoop_agree hloop]⟩

theorem find_invalid {path : Option CString} {f : File}
    (h : find v path io = some (f, io')) (hvalid : f.valid = false) :
    f = File.invalid := by
  rw [find.eq_def] at h
  split at h
  · cases h
    rfl
  · split at h
    · cases h
    · cases h
      rfl
    · cases h
      cases hvalid

/-- A sector with a few byte strings laid into it. -/
def layout (parts : List (Nat × List UInt8)) (k : Nat) : UInt8 :=
  match parts.find? fun p => p.1 ≤ k && k < p.1 + p.2.length with
  | some p => p.2.getD (k - p.1) 0
  | none => 0

/-- A short entry with a cluster number below 256. -/
def layShort (name11 : List UInt8) (attr cluster : UInt8)
    (size : List UInt8) : List UInt8 :=
  name11 ++ attr :: List.replicate 14 0 ++ [cluster, 0] ++ size

/-- Eight sectors with one-sector clusters from sector 2 on: the root holds
`Notes.text` of 600 bytes, in clusters 3 and 5, and the directory `SUB` with a
file `A` of three bytes. -/
def sampleSector : Nat → List (Nat × List UInt8)
  | 0 => [(11, [0x00, 0x02, 0x01, 0x01, 0x00, 0x01]), (32, [0x08]),
      (36, [0x01]), (44, [0x02]),
      (82, [0x46, 0x41, 0x54, 0x33, 0x32, 0x20, 0x20, 0x20]),
      (510, [0x55, 0xAA])]
  | 1 => [(8, [0xF8, 0xFF, 0xFF, 0x0F, 0x05, 0x00, 0x00, 0x00,
      0xF8, 0xFF, 0xFF, 0x0F, 0xF8, 0xFF, 0xFF, 0x0F,
      0xF8, 0xFF, 0xFF, 0x0F])]
  | 2 => [(0, [0x41, 0x4E, 0x00, 0x6F, 0x00, 0x74, 0x00, 0x65, 0x00, 0x73,
        0x00, 0x0F, 0x00, 0xF7, 0x2E, 0x00, 0x74, 0x00, 0x65, 0x00, 0x78,
        0x00, 0x74, 0x00, 0x00, 0x00, 0x00, 0x00, 0xFF, 0xFF, 0xFF, 0xFF]),
      (32, layShort [0x4E, 0x4F, 0x54, 0x45, 0x53, 0x7E, 0x31, 0x20, 0x54,
        0x45, 0x58] 0x20 3 [0x58, 0x02, 0x00, 0x00]),
      (64, layShort [0x53, 0x55, 0x42, 0x20, 0x20, 0x20, 0x20, 0x20, 0x20,
        0x20, 0x20] 0x10 4 [0x00, 0x00, 0x00, 0x00])]
  | 3 => [(0, List.replicate 512 0x61)]
  | 4 => [(0, layShort (0x2E :: List.replicate 10 0x20) 0x10 4 [0, 0, 0, 0]),
      (32, layShort (0x2E :: 0x2E :: List.replicate 9 0x20) 0x10 0
        [0, 0, 0, 0]),
      (64, layShort (0x41 :: List.replicate 10 0x20) 0x20 6 [3, 0, 0, 0])]
  | 5 => [(0, List.replicate 88 0x62)]
  | 6 => [(0, [0x78, 0x79, 0x7A])]
  | _ => []

def sampleDisk : Config :=
  { valid := true, capacity := 8, capacity_lt := by decide,
    disk := fun lba i => layout (sampleSector lba) i }

def sample : Fat32 :=
  { disk := sampleDisk
    metadata :=
      { bytesPerSector := 512, sectorsPerCluster := 1, reservedSectors := 1,
        numFats := 1, sectorsPerFat := 1, rootCluster := 2,
        totalSectors := 8, dataStartSector := 2, clusterCount := 6,
        volumeId := 0, label := List.replicate 11 0,
        freeClustersHint := 0xFFFFFFFF }
    mounted := ⟨allOk, by decide +kernel⟩ }

/-- Entry `i` of the root directory of the sample volume. -/
def sampleRoot (i : Nat) : Mem := fun k => sample.disk.sectorAt 2 (32 * i + k)

def notes : List UInt8 :=
  [0x4E, 0x6F, 0x74, 0x65, 0x73, 0x2E, 0x74, 0x65, 0x78, 0x74]

def notesPath : CString :=
  { bytes := [0x2F, 0x6E, 0x4F, 0x74, 0x65, 0x73, 0x2E, 0x54, 0x45, 0x58, 0x54]
    noNul := by decide }

theorem find_sample : ∃ f io, find sample (some notesPath) allOk =
    some (f, io) ∧ f.valid = true ∧ f.dir = false := by
  have h : (find sample (some notesPath) allOk).map
      (fun r => (r.1.valid, r.1.dir)) = some (true, false) := by
    decide +kernel
  obtain ⟨⟨f, io⟩, hfind, hfields⟩ := Option.map_eq_some_iff.mp h
  exact ⟨f, io, hfind, (Prod.mk.inj hfields).1, (Prod.mk.inj hfields).2⟩

end Fat32

end IntroOs
