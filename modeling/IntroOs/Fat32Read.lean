/-
`File::read` against the contents of a file.  The contents are a partial
function from positions to bytes, defined as far as the chain of clusters
reaches; a read delivers them exactly, whatever the cursor cache holds, as
long as a valid cached cluster is the link of the chain it claims to be.
-/
import IntroOs.Fat32Scan

namespace ByteMem

theorem copy_congr {m : Mem} {a n : Nat} {src src' : Mem}
    (h : ∀ k < n, src k = src' k) : copy m a n src = copy m a n src' := by
  funext x
  simp only [copy]
  split
  · exact h _ (by omega)
  · rfl

end ByteMem

namespace IntroOs

open ByteMem

namespace Fat32

/-- The clusters of a chain in order, up to and including the first number
that is no valid cluster. -/
def chain (v : Fat32) (firstCluster : Nat) : Nat → Option Nat
  | 0 => some firstCluster
  | i + 1 =>
      match chain v firstCluster i with
      | none => none
      | some c =>
          if v.metadata.validCluster c then (fatNext v c allOk).1 else none

/-- Byte `k` of a cluster. -/
def clusterByte (v : Fat32) (cluster k : Nat) : UInt8 :=
  v.disk.byte (v.metadata.clusterLba cluster) k

/-- The cluster that holds chain position `i`, if the chain gets there. -/
def clusterAt (v : Fat32) (firstCluster i : Nat) : Option Nat :=
  (chain v firstCluster i).filter fun c => v.metadata.validCluster c

/-- The contents of the file that starts at `firstCluster`. -/
def fileByte (v : Fat32) (firstCluster pos : Nat) : Option UInt8 :=
  (clusterAt v firstCluster (pos / v.metadata.clusterBytes)).map fun c =>
    clusterByte v c (pos % v.metadata.clusterBytes)

section Chain

variable {v : Fat32} {first i k c : Nat}

theorem chain_zero (v : Fat32) (first : Nat) :
    chain v first 0 = some first := rfl

theorem chain_succ (h : chain v first i = some c) :
    chain v first (i + 1) =
      if v.metadata.validCluster c then some (fatLink v c) else none := by
  simp only [chain, h]
  split
  · rename_i hvalid
    rw [fatNext_allOk hvalid]
  · rfl

theorem chain_succ_of_none (h : chain v first i = none) :
    chain v first (i + 1) = none := by
  simp only [chain, h]

theorem chain_add_of_none (h : chain v first i = none) (n : Nat) :
    chain v first (i + n) = none := by
  induction n with
  | zero => exact h
  | succ n ih => exact chain_succ_of_none ih

theorem clusterAt_eq_some_iff : clusterAt v first i = some c ↔
    chain v first i = some c ∧ v.metadata.validCluster c = true := by
  simp [clusterAt, Option.filter_eq_some_iff]

theorem clusterAt_of_succ (h : (clusterAt v first (i + 1)).isSome = true) :
    (clusterAt v first i).isSome = true := by
  obtain ⟨c', hc'⟩ := Option.isSome_iff_exists.mp h
  obtain ⟨hchain, -⟩ := clusterAt_eq_some_iff.mp hc'
  cases hi : chain v first i with
  | none => rw [chain_succ_of_none hi] at hchain; cases hchain
  | some c =>
      rw [chain_succ hi] at hchain
      split at hchain
      · rename_i hvalid
        rw [clusterAt_eq_some_iff.mpr ⟨hi, hvalid⟩]
        rfl
      · cases hchain

/-- The chain has no holes. -/
theorem clusterAt_of_le (hle : i ≤ k)
    (h : (clusterAt v first k).isSome = true) :
    (clusterAt v first i).isSome = true := by
  induction k, hle using Nat.le_induction with
  | base => exact h
  | succ k hle ih => exact ih (clusterAt_of_succ h)

theorem clusterAt_isSome_iff : (clusterAt v first i).isSome = true ↔
    ∃ c, chain v first i = some c ∧ v.metadata.validCluster c = true := by
  simp only [Option.isSome_iff_exists, clusterAt_eq_some_iff]

/-- The contents reach a position when the chain is good up to its cluster. -/
theorem fileByte_isSome_iff {pos : Nat} :
    (fileByte v first pos).isSome = true ↔
      ∀ i ≤ pos / v.metadata.clusterBytes, ∃ c,
        chain v first i = some c ∧ v.metadata.validCluster c = true := by
  rw [fileByte, Option.isSome_map]
  constructor
  · intro h i hi
    exact clusterAt_isSome_iff.mp (clusterAt_of_le hi h)
  · intro h
    exact clusterAt_isSome_iff.mpr (h _ (Nat.le_refl _))

theorem fileByte_none_of_le {pos pos' : Nat} (hle : pos ≤ pos')
    (h : clusterAt v first (pos / v.metadata.clusterBytes) = none) :
    fileByte v first pos' = none := by
  have hindex : pos / v.metadata.clusterBytes ≤
      pos' / v.metadata.clusterBytes := Nat.div_le_div_right hle
  rw [fileByte, Option.map_eq_none_iff, ← Option.not_isSome_iff_eq_none]
  intro hsome
  have hhere := clusterAt_of_le hindex hsome
  rw [h] at hhere
  cases hhere

/-- The contents within one cluster. -/
theorem fileByte_add {pos : Nat} (n : Nat)
    (h : clusterAt v first (pos / v.metadata.clusterBytes) = some c)
    (hn : pos % v.metadata.clusterBytes + n < v.metadata.clusterBytes) :
    fileByte v first (pos + n) =
      some (clusterByte v c (pos % v.metadata.clusterBytes + n)) := by
  have hsplit : pos + n = pos % v.metadata.clusterBytes + n +
      v.metadata.clusterBytes * (pos / v.metadata.clusterBytes) := by
    have hdiv := Nat.mod_add_div pos v.metadata.clusterBytes
    omega
  have hindex : (pos + n) / v.metadata.clusterBytes =
      pos / v.metadata.clusterBytes := by
    rw [hsplit, Nat.add_mul_div_left _ _ (clusterBytes_pos v),
      Nat.div_eq_of_lt hn, Nat.zero_add]
  have hwithin : (pos + n) % v.metadata.clusterBytes =
      pos % v.metadata.clusterBytes + n := by
    rw [hsplit, Nat.add_mul_mod_self_left, Nat.mod_eq_of_lt hn]
  rw [fileByte, hindex, hwithin, h]
  rfl

end Chain

end Fat32

namespace File

open DiskReader Fat32

variable {v : Fat32} {f : File}

/-- A valid cluster in the cursor cache is the link it is cached as. -/
def CacheOk (v : Fat32) (f : File) : Prop :=
  v.metadata.validCluster f.cacheCluster = true →
    chain v f.firstCluster f.cacheIndex = some f.cacheCluster

section Locate

variable {first i c index : Nat} {io io' : Outcomes}

theorem walk_allOk (n : Nat) (h : chain v first i = some c) :
    walk v n c allOk = (chain v first (i + n), allOk) := by
  induction n generalizing i c with
  | zero => rw [walk, Nat.add_zero, h]
  | succ n ih =>
      have hnext := chain_succ h
      rw [walk, show i + (n + 1) = i + 1 + n by omega]
      split
      · rename_i hvalid
        rw [if_pos hvalid] at hnext
        simp only [fatNext_allOk hvalid]
        exact ih hnext
      · rename_i hvalid
        rw [if_neg hvalid] at hnext
        rw [chain_add_of_none hnext]

theorem walk_some {n c' : Nat} (h : chain v first i = some c)
    (hwalk : walk v n c io = (some c', io')) :
    chain v first (i + n) = some c' := by
  induction n generalizing i c io with
  | zero =>
      cases hwalk
      exact h
  | succ n ih =>
      have hnext := chain_succ h
      rw [walk] at hwalk
      split at hwalk
      · rename_i hvalid
        rw [if_pos hvalid] at hnext
        split at hwalk
        · cases hwalk
        · rename_i next io₁ hread
          rw [← eq_fatLink_of_fatNext hread] at hnext
          rw [show i + (n + 1) = i + 1 + n by omega]
          exact ih hnext hwalk
      · cases hwalk

/-- With the disk reading well, `read` finds the cluster at any chain
position, or that there is none. -/
theorem locate_allOk (h : CacheOk v f) (index : Nat) :
    f.locate v index allOk = (clusterAt v f.firstCluster index, allOk) := by
  have hwalk : (if v.metadata.validCluster f.cacheCluster ∧
        f.cacheIndex ≤ index then
        walk v (index - f.cacheIndex) f.cacheCluster allOk
      else walk v index f.firstCluster allOk) =
      (chain v f.firstCluster index, allOk) := by
    split
    · rename_i hcache
      rw [walk_allOk _ (h hcache.1), Nat.add_sub_cancel' hcache.2]
    · rw [walk_allOk index (chain_zero v f.firstCluster), Nat.zero_add]
  simp only [locate, hwalk, clusterAt]
  cases hchain : chain v f.firstCluster index with
  | none => rfl
  | some c =>
      simp only [Option.filter]
      split <;> rfl

theorem locate_valid {index c : Nat} {io io' : Outcomes}
    (h : f.locate v index io = (some c, io')) :
    v.metadata.validCluster c = true := by
  simp only [locate] at h
  split at h
  · cases h
  · split at h
    · rename_i hvalid
      cases h
      exact hvalid
    · cases h

/-- A cluster that `read` finds at all is the one at that position. -/
theorem locate_some (h : CacheOk v f)
    (hlocate : f.locate v index io = (some c, io')) :
    clusterAt v f.firstCluster index = some c := by
  simp only [locate] at hlocate
  split at hlocate
  · cases hlocate
  rename_i c' io₁ hwalk
  split at hlocate
  · rename_i hvalid
    cases hlocate
    refine clusterAt_eq_some_iff.mpr ⟨?_, hvalid⟩
    split at hwalk
    · rename_i hcache
      rw [← walk_some (h hcache.1) hwalk, Nat.add_sub_cancel' hcache.2]
    · rw [← walk_some (chain_zero v f.firstCluster) hwalk, Nat.zero_add]
  · cases hlocate

end Locate

section Step

variable {c pos remaining offset len : Nat} {r : Reading}

theorem readChunk_file (v : Fat32) (c pos remaining : Nat) (r : Reading) :
    (readChunk v c pos remaining r).2.file = r.file := by
  simp only [readChunk]
  split <;> split <;> rfl

/-- One round moves at least one byte, and not past the cluster. -/
theorem readChunk_allOk (hvalid : v.metadata.validCluster c = true)
    (hpos : 0 < remaining) (hlt : remaining < 2 ^ 32) (hio : r.io = allOk) :
    ∃ n, 0 < n ∧ n ≤ remaining ∧
      pos % v.metadata.clusterBytes + n ≤ v.metadata.clusterBytes ∧
      readChunk v c pos remaining r =
        (true, { r with
          out := copy r.out r.done n fun k =>
            clusterByte v c (pos % v.metadata.clusterBytes + k)
          done := r.done + n }) := by
  have hdisk := (geometryOf v).disk_valid
  have hwithin : pos % v.metadata.clusterBytes <
      v.metadata.sectorsPerCluster * 512 := Nat.mod_lt pos (clusterBytes_pos v)
  have hbytes : v.metadata.clusterBytes =
      v.metadata.sectorsPerCluster * 512 := rfl
  simp only [readChunk, wholeSectors, kSector, kSectorSize]
  generalize pos % v.metadata.clusterBytes = within at *
  have hbyte : ∀ k, v.disk.byte
      (v.metadata.clusterLba c + within / 512) (within % 512 + k) =
        clusterByte v c (within + k) := by
    intro k
    rw [Config.byte_add_sectors, clusterByte, kSectorSize,
      show within / 512 * 512 + (within % 512 + k) = within + k by omega]
  by_cases hdirect : within % 512 = 0 ∧ 512 ≤ remaining
  · simp only [ge_iff_le, if_pos hdirect]
    rw [Nat.mod_eq_of_lt (show remaining / 512 < 2 ^ 32 by omega)]
    generalize hn : min (remaining / 512)
      (v.metadata.sectorsPerCluster - within / 512) = n
    have hfit := cluster_inRange (s := within / 512 + n) hvalid (by omega)
    refine ⟨n * 512, by omega, by omega, by omega, ?_⟩
    rw [hio, Config.readSectors_allOk hdisk (by omega)]
    simp only [kSectorSize, ← hio]
    congr 2
    apply copy_congr
    intro k _
    rw [← hbyte k, hdirect.1, Nat.zero_add]
  · simp only [ge_iff_le, if_neg hdirect]
    have hfit := cluster_inRange (s := within / 512 + 1) hvalid (by omega)
    refine ⟨min (512 - within % 512) remaining, by omega, by omega,
      by omega, ?_⟩
    rw [hio, Config.readSector_allOk hdisk (by omega)]
    simp only [← hio]
    congr 2
    apply copy_congr
    intro k hk
    rw [Config.sectorAt_apply (show _ < 512 by omega), hbyte]

/-- Under any outcomes, a round that goes on has moved forward. -/
theorem readChunk_progress (hpos : 0 < remaining) (hlt : remaining < 2 ^ 32)
    (h : (readChunk v c pos remaining r).1 = true) :
    r.done < (readChunk v c pos remaining r).2.done := by
  have hwithin : pos % v.metadata.clusterBytes <
      v.metadata.sectorsPerCluster * 512 := Nat.mod_lt pos (clusterBytes_pos v)
  simp only [readChunk, wholeSectors, kSector, kSectorSize] at h ⊢
  generalize pos % v.metadata.clusterBytes = within at *
  by_cases hdirect : within % 512 = 0 ∧ 512 ≤ remaining
  · simp only [ge_iff_le, if_pos hdirect] at h ⊢
    split at h
    · cases h
    · simp only [Nat.mod_eq_of_lt (show remaining / 512 < 2 ^ 32 by omega)]
      omega
  · simp only [ge_iff_le, if_neg hdirect] at h ⊢
    split at h
    · cases h
    · simp only
      omega

theorem readStep_none (hcache : CacheOk v r.file) (hio : r.io = allOk)
    (h : clusterAt v r.file.firstCluster
      ((offset + r.done) / v.metadata.clusterBytes) = none) :
    readStep v offset len r = (false, r) := by
  simp only [readStep, hio, locate_allOk hcache, h]
  rw [← hio]

/-- A round of `read` in a cluster of the chain: its bytes arrive and the
cursor moves to the cluster. -/
theorem readStep_some (hcache : CacheOk v r.file) (hio : r.io = allOk)
    (hdone : r.done < len) (hlen : offset + len < 2 ^ 32)
    (h : clusterAt v r.file.firstCluster
      ((offset + r.done) / v.metadata.clusterBytes) = some c) :
    ∃ n src, 0 < n ∧ r.done + n ≤ len ∧
      (∀ k < n, fileByte v r.file.firstCluster (offset + r.done + k) =
        some (src k)) ∧
      readStep v offset len r = (true,
        { file := r.file.moveCursor
            ((offset + r.done) / v.metadata.clusterBytes) c
          out := copy r.out r.done n src
          done := r.done + n
          io := r.io }) := by
  obtain ⟨n, hpos, hle, hfit, hchunk⟩ :=
    @readChunk_allOk v c (offset + r.done) (len - r.done)
      { r with
        file := r.file.moveCursor
          ((offset + r.done) / v.metadata.clusterBytes) c }
      (clusterAt_eq_some_iff.mp h).2 (by omega) (by omega) hio
  refine ⟨n, fun k => clusterByte v c
    ((offset + r.done) % v.metadata.clusterBytes + k), hpos, by omega, ?_, ?_⟩
  · intro k hk
    exact fileByte_add k h (by omega)
  · simp only [readStep, hio, locate_allOk hcache, h]
    rw [← hio]
    exact hchunk

end Step

/-- The handle is still the same but for the cursor, which is right. -/
structure Keeps (v : Fat32) (f g : File) : Prop where
  fs : g.fs = f.fs
  firstCluster : g.firstCluster = f.firstCluster
  size : g.size = f.size
  dir : g.dir = f.dir
  cache : CacheOk v g

theorem Keeps.refl (h : CacheOk v f) : Keeps v f f :=
  ⟨rfl, rfl, rfl, rfl, h⟩

theorem Keeps.trans {g h : File} (hfg : Keeps v f g) (hgh : Keeps v g h) :
    Keeps v f h :=
  ⟨hgh.fs.trans hfg.fs, hgh.firstCluster.trans hfg.firstCluster,
    hgh.size.trans hfg.size, hgh.dir.trans hfg.dir, hgh.cache⟩

/-- The cursor's 32-bit index is wide enough for every position of a file. -/
theorem Keeps.moveCursor {pos c : Nat} (hpos : pos < 2 ^ 32)
    (h : clusterAt v f.firstCluster (pos / v.metadata.clusterBytes) = some c) :
    Keeps v f (f.moveCursor (pos / v.metadata.clusterBytes) c) := by
  refine ⟨rfl, rfl, rfl, rfl, ?_⟩
  intro _
  have hindex : pos / v.metadata.clusterBytes < 2 ^ 32 :=
    Nat.lt_of_le_of_lt (Nat.div_le_self _ _) hpos
  simp only [File.moveCursor, Nat.mod_eq_of_lt hindex]
  exact (clusterAt_eq_some_iff.mp h).1

/-- A round keeps the handle under any outcomes: the cursor moves only to a
cluster the walk has found. -/
theorem readStep_keeps {offset : Nat} (len : Nat) {r : Reading}
    (hcache : CacheOk v r.file) (hpos : offset + r.done < 2 ^ 32) :
    Keeps v r.file (readStep v offset len r).2.file := by
  simp only [readStep]
  split
  · exact Keeps.refl hcache
  · rename_i c io hlocate
    rw [readChunk_file]
    exact Keeps.moveCursor hpos (locate_some hcache hlocate)

theorem readLoop_keeps {offset len fuel : Nat} {r r' : Reading} {ret : Int}
    (hlen : offset + len < 2 ^ 32) (hcache : CacheOk v r.file)
    (h : readLoop v offset len fuel r = some (ret, r')) :
    Keeps v r.file r'.file := by
  induction fuel generalizing r with
  | zero => cases h
  | succ fuel ih =>
      rw [readLoop] at h
      split at h
      · rename_i hdone
        have hstep := readStep_keeps len hcache
          (show offset + r.done < 2 ^ 32 by omega)
        split at h
        · rename_i r₁ heq
          cases h
          rwa [heq] at hstep
        · rename_i r₁ heq
          rw [heq] at hstep
          exact hstep.trans (ih hstep.cache h)
      · cases h
        exact Keeps.refl hcache

/-- A read comes to its end under any outcomes. -/
theorem readLoop_isSome {offset len fuel : Nat} {r : Reading}
    (hlen : len < 2 ^ 32) (hfuel : len - r.done < fuel) :
    (readLoop v offset len fuel r).isSome = true := by
  induction fuel generalizing r with
  | zero => omega
  | succ fuel ih =>
      rw [readLoop]
      split
      · rename_i hdone
        split
        · rfl
        · rename_i r₁ hstep
          have hmore : r.done < r₁.done := by
            simp only [readStep] at hstep
            split at hstep
            · cases hstep
            · rename_i c io hlocate
              have hchunk := readChunk_progress (by omega) (by omega)
                (congrArg Prod.fst hstep)
              rwa [hstep] at hchunk
          exact ih (by omega)
      · rfl

/-- The buffer behind a read of positions `[lo, hi)`: the contents where the
chain reaches, and what was there otherwise. -/
def delivered (v : Fat32) (firstCluster offset lo hi : Nat) (out : Mem) :
    Mem := fun j =>
  if lo ≤ j ∧ j < hi then
    (fileByte v firstCluster (offset + j)).getD (out j)
  else out j

theorem delivered_empty (first offset lo : Nat) (out : Mem) :
    delivered v first offset lo lo out = out := by
  funext j
  rw [delivered, if_neg (by omega)]

theorem delivered_none {first offset lo hi : Nat} {out : Mem}
    (h : clusterAt v first ((offset + lo) / v.metadata.clusterBytes) = none) :
    delivered v first offset lo hi out = out := by
  funext j
  rw [delivered]
  split
  · rename_i hj
    rw [fileByte_none_of_le (show offset + lo ≤ offset + j by omega) h]
    rfl
  · rfl

/-- Bytes that have arrived are part of what is delivered. -/
theorem delivered_copy {first offset lo n hi : Nat} {out src : Mem}
    (hle : lo + n ≤ hi)
    (h : ∀ k < n, fileByte v first (offset + lo + k) = some (src k)) :
    delivered v first offset (lo + n) hi (copy out lo n src) =
      delivered v first offset lo hi out := by
  funext j
  simp only [delivered, copy]
  by_cases hj : lo ≤ j ∧ j < lo + n
  · have hbyte := h (j - lo) (by omega)
    rw [show offset + lo + (j - lo) = offset + j by omega] at hbyte
    rw [if_neg (by omega), if_pos hj, if_pos (by omega), hbyte]
    rfl
  · rw [if_neg hj]
    by_cases hafter : lo + n ≤ j ∧ j < hi
    · rw [if_pos hafter, if_pos (by omega)]
    · rw [if_neg hafter, if_neg (by omega)]

/-- The value a read of positions `[offset, offset + len)` returns. -/
def readValue (v : Fat32) (firstCluster offset len : Nat) : Int :=
  if (fileByte v firstCluster (offset + len - 1)).isSome then len else -1

/-- `read`'s loop with the disk reading well, from any cursor that is right:
what it returns and leaves in the buffer does not depend on the cursor. -/
theorem readLoop_allOk {offset len fuel : Nat} {r : Reading}
    (hlen : offset + len < 2 ^ 32) (hpos : 0 < len) (hle : r.done ≤ len)
    (hfuel : len - r.done < fuel) (hio : r.io = allOk)
    (hcache : CacheOk v r.file)
    (hsofar : 0 < r.done →
      (fileByte v r.file.firstCluster (offset + r.done - 1)).isSome = true) :
    ∃ r', readLoop v offset len fuel r =
        some (readValue v r.file.firstCluster offset len, r') ∧
      r'.out = delivered v r.file.firstCluster offset r.done len r.out := by
  induction fuel generalizing r with
  | zero => omega
  | succ fuel ih =>
      rw [readLoop]
      by_cases hdone : r.done < len
      · rw [if_pos hdone]
        cases hcluster : clusterAt v r.file.firstCluster
            ((offset + r.done) / v.metadata.clusterBytes) with
        | none =>
            have hlast : fileByte v r.file.firstCluster (offset + len - 1) =
                none := fileByte_none_of_le (by omega) hcluster
            rw [readStep_none hcache hio hcluster, readValue, hlast]
            exact ⟨r, rfl, (delivered_none hcluster).symm⟩
        | some c =>
            obtain ⟨n, src, hn, hmore, hbytes, hstep⟩ :=
              readStep_some hcache hio hdone hlen hcluster
            have hkeeps := Keeps.moveCursor
              (show offset + r.done < 2 ^ 32 by omega) hcluster
            have hlast : fileByte v r.file.firstCluster
                (offset + (r.done + n) - 1) = some (src (n - 1)) := by
              rw [← hbytes (n - 1) (by omega)]
              congr 1
              omega
            rw [hstep, ← delivered_copy hmore hbytes]
            refine @ih ⟨r.file.moveCursor _ c, _, r.done + n, r.io⟩ hmore
              (show len - (r.done + n) < fuel by omega) hio hkeeps.cache ?_
            intro _
            exact Option.isSome_of_eq_some hlast
      · have heq : r.done = len := by omega
        rw [if_neg hdone, heq, delivered_empty, readValue, if_pos]
        · exact ⟨r, rfl, rfl⟩
        · exact heq ▸ hsofar (by omega)

/-- How many bytes a read is about: the request cut at the end of the file. -/
def readLen (f : File) (offset len : Nat) : Nat :=
  if offset ≥ f.size then 0 else min len (f.size - offset)

theorem readLen_add_lt {offset len : Nat} (h : 0 < f.readLen offset len) :
    offset + f.readLen offset len < 2 ^ 32 := by
  have hsize := f.size_lt
  simp only [readLen] at h ⊢
  split at h
  · omega
  · rw [if_neg ‹_›]
    omega

/-- `read` on a valid file handle, as its loop on the clamped length. -/
theorem read_eq {offset len : Nat} {out : Mem} {io : Outcomes}
    (hfs : f.fs = some v) (hdir : f.dir = false) :
    f.read offset out len io =
      if f.readLen offset len = 0 then some (0, ⟨f, out, 0, io⟩)
      else readLoop v offset (f.readLen offset len)
        (f.readLen offset len + 1) ⟨f, out, 0, io⟩ := by
  simp only [read, hfs, hdir, readLen]
  by_cases hoff : offset ≥ f.size
  · simp [hoff]
  · by_cases hlen : len = 0
    · simp [hlen]
    · have hpos : min len (f.size - offset) ≠ 0 := by omega
      simp [hoff, hlen, hpos]

/-- What a read with the disk reading well returns and leaves in the buffer,
for any cursor that is right. -/
theorem read_allOk (hfs : f.fs = some v) (hdir : f.dir = false)
    (hcache : CacheOk v f) (offset len : Nat) (out : Mem) :
    ∃ r, f.read offset out len allOk = some
        (if f.readLen offset len = 0 then 0
          else readValue v f.firstCluster offset (f.readLen offset len), r) ∧
      r.out = delivered v f.firstCluster offset 0
        (f.readLen offset len) out := by
  rw [read_eq hfs hdir]
  by_cases hzero : f.readLen offset len = 0
  · rw [if_pos hzero, if_pos hzero, hzero, delivered_empty]
    exact ⟨_, rfl, rfl⟩
  · rw [if_neg hzero, if_neg hzero]
    have hpos := Nat.pos_of_ne_zero hzero
    exact @readLoop_allOk v offset _ _ ⟨f, out, 0, allOk⟩
      (readLen_add_lt hpos) hpos (Nat.zero_le _)
      (by simp only; omega) rfl hcache (fun h => absurd h (Nat.lt_irrefl 0))

/-- A read under any outcomes returns, and leaves the handle in order. -/
theorem read_keeps (hfs : f.fs = some v) (hcache : CacheOk v f)
    (offset len : Nat) (out : Mem) (io : Outcomes) :
    ∃ ret r, f.read offset out len io = some (ret, r) ∧
      Keeps v f r.file := by
  by_cases hdir : f.dir = true
  · exact ⟨-1, ⟨f, out, 0, io⟩, by simp [read, hfs, hdir], Keeps.refl hcache⟩
  · rw [read_eq hfs (by simpa using hdir)]
    by_cases hzero : f.readLen offset len = 0
    · rw [if_pos hzero]
      exact ⟨0, _, rfl, Keeps.refl hcache⟩
    · rw [if_neg hzero]
      have hlt := readLen_add_lt (Nat.pos_of_ne_zero hzero)
      obtain ⟨⟨ret, r⟩, hr⟩ := Option.isSome_iff_exists.mp
        (@readLoop_isSome v offset _ _ ⟨f, out, 0, io⟩
          (show f.readLen offset len < 2 ^ 32 by omega)
          (Nat.lt_succ_self _))
      exact ⟨ret, r, hr, readLoop_keeps hlt hcache hr⟩

theorem cacheOk_fileOf (entry : Entry) : CacheOk v (fileOf v entry) := by
  intro h
  simp [fileOf, Fat32Metadata.validCluster] at h

/-- A read of a fresh handle is exact on every image: all bytes of the request
when the chain reaches its last one, and -1 when it does not. -/
theorem read_exact {path : Option CString} {io io' : Outcomes}
    (hfind : find v path io = some (f, io')) (hvalid : f.valid = true)
    (hfile : f.dir = false) (offset len : Nat) (out : Mem) :
    ∃ ret r, f.read offset out len allOk = some (ret, r) ∧
      (∀ j, f.readLen offset len ≤ j → r.out j = out j) ∧
      (f.readLen offset len = 0 → ret = 0) ∧
      (0 < f.readLen offset len →
        (∀ i ≤ (offset + f.readLen offset len - 1) / v.metadata.clusterBytes,
          ∃ c, chain v f.firstCluster i = some c ∧
            v.metadata.validCluster c = true) →
        ret = f.readLen offset len ∧
        ∀ j < f.readLen offset len, ∃ c,
          chain v f.firstCluster ((offset + j) / v.metadata.clusterBytes) =
            some c ∧
          r.out j = clusterByte v c ((offset + j) % v.metadata.clusterBytes)) ∧
      (0 < f.readLen offset len →
        ¬ (∀ i ≤ (offset + f.readLen offset len - 1) /
            v.metadata.clusterBytes,
          ∃ c, chain v f.firstCluster i = some c ∧
            v.metadata.validCluster c = true) →
        ret = -1) := by
  obtain ⟨entry, rfl, -⟩ := find_valid hfind hvalid
  obtain ⟨r, hread, hout⟩ :=
    read_allOk rfl hfile (cacheOk_fileOf entry) offset len out
  generalize (fileOf v entry).readLen offset len = m at *
  generalize (fileOf v entry).firstCluster = first at *
  refine ⟨_, r, hread, ?_, ?_, ?_, ?_⟩
  · intro j hj
    rw [hout, delivered, if_neg (by omega)]
  · intro hzero
    rw [if_pos hzero]
  · intro hpos hchain
    rw [if_neg (by omega), readValue, if_pos (fileByte_isSome_iff.mpr hchain)]
    refine ⟨rfl, ?_⟩
    intro j hj
    have hindex : (offset + j) / v.metadata.clusterBytes ≤
        (offset + m - 1) / v.metadata.clusterBytes :=
      Nat.div_le_div_right (by omega)
    obtain ⟨c, hc, hvalid⟩ := hchain _ hindex
    refine ⟨c, hc, ?_⟩
    rw [hout, delivered, if_pos ⟨Nat.zero_le j, hj⟩, fileByte,
      clusterAt_eq_some_iff.mpr ⟨hc, hvalid⟩]
    rfl
  · intro hpos hchain
    rw [if_neg (by omega), readValue,
      if_neg (fun h => hchain (fileByte_isSome_iff.mp h))]

theorem read_exact_notes : ∃ f io,
    find sample (some notesPath) allOk = some (f, io) ∧ f.valid = true ∧
    f.dir = false ∧ ∃ ret r,
      f.read 500 (fun _ => 0) 1000 allOk = some (ret, r) ∧
      ∀ j, f.readLen 500 1000 ≤ j → r.out j = 0 := by
  obtain ⟨f, io, hfind, hvalid, hfile⟩ := find_sample
  obtain ⟨ret, r, hread, hbehind, -⟩ :=
    read_exact hfind hvalid hfile 500 1000 fun _ => 0
  exact ⟨f, io, hfind, hvalid, hfile, ret, r, hread, hbehind⟩

example : ((find sample (some notesPath) allOk).bind fun r =>
    (r.1.read 500 (fun _ => 0) 1000 allOk).map fun r =>
      (r.1, r.2.out 11, r.2.out 12, r.2.out 99, r.2.out 100)) =
    some (100, 0x61, 0x62, 0x62, 0) := by decide +kernel

/-- An earlier call on a handle: its arguments and how the disk behaved. -/
structure ReadCall where
  offset : Nat
  out : Mem
  len : Nat
  io : Outcomes

/-- The handle behind a sequence of reads. -/
def readAll : File → List ReadCall → Option File
  | f, [] => some f
  | f, call :: rest =>
      match f.read call.offset call.out call.len call.io with
      | none => none
      | some (_, r) => readAll r.file rest

theorem readAll_keeps (hfs : f.fs = some v) (hcache : CacheOk v f)
    (calls : List ReadCall) :
    ∃ f', f.readAll calls = some f' ∧ Keeps v f f' := by
  induction calls generalizing f with
  | nil => exact ⟨f, rfl, Keeps.refl hcache⟩
  | cons call rest ih =>
      obtain ⟨ret, r, hread, hkeeps⟩ :=
        read_keeps hfs hcache call.offset call.len call.out call.io
      obtain ⟨f', hrest, hkeeps'⟩ := ih (hkeeps.fs.trans hfs) hkeeps.cache
      exact ⟨f', by simp only [readAll, hread, hrest], hkeeps.trans hkeeps'⟩

theorem readAll_invalid (calls : List ReadCall) :
    invalid.readAll calls = some invalid := by
  induction calls with
  | nil => rfl
  | cons call rest ih => simpa [readAll, read, invalid] using ih

/-- The cursor is unobservable: two handles that differ only in a right cursor
read the same. -/
theorem Keeps.read_eq {g : File} (hfs : f.fs = some v) (h : Keeps v f g)
    (hcache : CacheOk v f) (offset len : Nat) (out : Mem) :
    ∃ ret r r', g.read offset out len allOk = some (ret, r) ∧
      f.read offset out len allOk = some (ret, r') ∧ r.out = r'.out := by
  have hgfs := h.fs.trans hfs
  by_cases hdir : f.dir = true
  · have hgdir := h.dir.trans hdir
    exact ⟨-1, ⟨g, out, 0, allOk⟩, ⟨f, out, 0, allOk⟩,
      by simp [read, hgfs, hgdir], by simp [read, hfs, hdir], rfl⟩
  · have hdir : f.dir = false := by simpa using hdir
    obtain ⟨r, hr, hout⟩ := read_allOk hgfs (h.dir.trans hdir) h.cache
      offset len out
    obtain ⟨r', hr', hout'⟩ := read_allOk hfs hdir hcache offset len out
    have hlen : g.readLen offset len = f.readLen offset len := by
      rw [readLen, readLen, h.size]
    rw [hlen, h.firstCluster] at hr hout
    exact ⟨_, r, r', hr, hr', hout.trans hout'.symm⟩

/-- Reads behind any earlier reads, failed or not, behave as on a handle that
was just found. -/
theorem read_after_reads {path : Option CString} {g : File}
    {io io' io₁ io₁' : Outcomes} (hf : find v path io = some (f, io'))
    (hg : find v path io₁ = some (g, io₁')) (hsame : f.valid = g.valid)
    (calls : List ReadCall) (offset len : Nat) (out : Mem) :
    ∃ f' ret r r', f.readAll calls = some f' ∧
      f'.read offset out len allOk = some (ret, r) ∧
      g.read offset out len allOk = some (ret, r') ∧ r.out = r'.out := by
  cases hvalid : f.valid with
  | true =>
      obtain ⟨entry, rfl, hfresh⟩ := find_valid hf hvalid
      obtain ⟨entry', rfl, hfresh'⟩ := find_valid hg (hsame ▸ hvalid)
      have heq : fileOf v entry = fileOf v entry' :=
        (Prod.mk.inj (Option.some.inj (hfresh.symm.trans hfresh'))).1
      have hcache := cacheOk_fileOf (v := v) entry
      obtain ⟨f', hreads, hkeeps⟩ := readAll_keeps rfl hcache calls
      obtain ⟨ret, r, r', hr, hr', hout⟩ :=
        hkeeps.read_eq rfl hcache offset len out
      exact ⟨f', ret, r, r', hreads, hr, heq ▸ hr', hout⟩
  | false =>
      rw [find_invalid hf hvalid, find_invalid hg (hsame ▸ hvalid)]
      exact ⟨invalid, -1, ⟨invalid, out, 0, allOk⟩, ⟨invalid, out, 0, allOk⟩,
        readAll_invalid calls, rfl, rfl, rfl⟩

/-- A read across the end of the first cluster, behind one whose disk failed
at the second sector. -/
theorem read_after_reads_notes : ∃ f io,
    find sample (some notesPath) allOk = some (f, io) ∧
    ∃ f' ret r r',
      f.readAll [⟨0, fun _ => 0, 600, fun k => k = 0⟩] = some f' ∧
      f'.read 500 (fun _ => 0) 100 allOk = some (ret, r) ∧
      f.read 500 (fun _ => 0) 100 allOk = some (ret, r') ∧
      r.out = r'.out := by
  obtain ⟨f, io, hfind, -⟩ := find_sample
  exact ⟨f, io, hfind, read_after_reads hfind hfind rfl _ 500 100 _⟩

end File

end IntroOs
