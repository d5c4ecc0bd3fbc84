/-
What mounting a volume is good for: exact geometry, clusters that fill their
own part of the data region, and no request for data that leaves it, from a
directory scan or from a read, whatever is on the disk.
-/
import IntroOs.Fat32Trace

namespace IntroOs

open ByteMem

namespace File

open DiskReader Fat32

/-- `walk` with the sectors it asks for. -/
def tracedWalk (v : Fat32) :
    Nat → Nat → Outcomes → (Option Nat × Outcomes) × List Event
  | 0, cluster, io => ((some cluster, io), [])
  | hops + 1, cluster, io =>
      if v.metadata.validCluster cluster then
        match v.fatNext cluster io with
        | (none, io) => ((none, io), [.fat (fatSector v cluster)])
        | (some next, io) =>
            let r := tracedWalk v hops next io
            (r.1, .fat (fatSector v cluster) :: r.2)
      else ((none, io), [])

/-- `locate` with the sectors it asks for. -/
def tracedLocate (f : File) (v : Fat32) (index : Nat) (io : Outcomes) :
    (Option Nat × Outcomes) × List Event :=
  let r :=
    if v.metadata.validCluster f.cacheCluster ∧ f.cacheIndex ≤ index then
      tracedWalk v (index - f.cacheIndex) f.cacheCluster io
    else tracedWalk v index f.firstCluster io
  let located :=
    match r.1 with
    | (none, io) => (none, io)
    | (some cluster, io) =>
        if v.metadata.validCluster cluster then (some cluster, io)
        else (none, io)
  (located, r.2)

/-- `readChunk` with the sectors it asks for. -/
def tracedChunk (v : Fat32) (cluster pos remaining : Nat) (r : Reading) :
    (Bool × Reading) × List Event :=
  let within := pos % v.metadata.clusterBytes
  let sectorInCluster := within / Fat32.kSector
  let byteInSector := within % Fat32.kSector
  let lba := v.metadata.clusterLba cluster + sectorInCluster
  if byteInSector = 0 ∧ remaining ≥ Fat32.kSector then
    let n := wholeSectors v.metadata remaining sectorInCluster
    let next :=
      match v.disk.readSectors lba n r.out r.done r.io with
      | (false, out, io) => (false, { r with out := out, io := io })
      | (true, out, io) =>
          (true, { r with
            out := out, io := io, done := r.done + n * Fat32.kSector })
    (next, [.data lba n])
  else
    let chunk := min (Fat32.kSector - byteInSector) remaining
    let next :=
      match v.disk.readSector lba r.io with
      | (none, io) => (false, { r with io := io })
      | (some sector, io) =>
          (true, { r with
            out := copy r.out r.done chunk fun k => sector (byteInSector + k)
            io := io
            done := r.done + chunk })
    (next, [.data lba 1])

/-- `readStep` with the sectors it asks for. -/
def tracedStep (v : Fat32) (offset len : Nat) (r : Reading) :
    (Bool × Reading) × List Event :=
  let pos := offset + r.done
  let index := pos / v.metadata.clusterBytes
  match r.file.tracedLocate v index r.io with
  | ((none, io), events) => ((false, { r with io := io }), events)
  | ((some cluster, io), events) =>
      let next := tracedChunk v cluster pos (len - r.done)
        { r with file := r.file.moveCursor index cluster, io := io }
      (next.1, events ++ next.2)

/-- `readLoop` with the sectors it asks for. -/
def tracedLoop (v : Fat32) (offset len : Nat) :
    Nat → Reading → Option ((Int × Reading) × List Event)
  | 0, _ => none
  | fuel + 1, r =>
      if r.done < len then
        match tracedStep v offset len r with
        | ((false, r), events) => some ((-1, r), events)
        | ((true, r), events) => do
            let (r, rest) ← tracedLoop v offset len fuel r
            some (r, events ++ rest)
      else some ((r.done, r), [])

/-- `File::read` with the sectors it asks for. -/
def tracedRead (f : File) (offset : Nat) (out : Mem) (len : Nat)
    (io : Outcomes) : Option ((Int × Reading) × List Event) :=
  let r : Reading := { file := f, out := out, done := 0, io := io }
  match f.fs with
  | none => some ((-1, r), [])
  | some v =>
      if f.dir then some ((-1, r), [])
      else if offset ≥ f.size ∨ len = 0 then some ((0, r), [])
      else
        let len := min len (f.size - offset)
        tracedLoop v offset len (len + 1) r

section Trace

variable {v : Fat32} {f : File}

theorem tracedWalk_eq (hops cluster : Nat) (io : Outcomes) :
    (tracedWalk v hops cluster io).1 = walk v hops cluster io ∧
      ∀ event ∈ (tracedWalk v hops cluster io).2,
        ∃ lba, event = .fat lba := by
  induction hops generalizing cluster io with
  | zero => exact ⟨rfl, List.forall_mem_nil _⟩
  | succ hops ih =>
      rw [tracedWalk, walk]
      split
      · cases fatNext v cluster io with
        | mk next io₁ =>
        cases next with
        | none => exact ⟨rfl, List.forall_mem_singleton.mpr ⟨_, rfl⟩⟩
        | some next =>
            exact ⟨(ih next io₁).1,
              List.forall_mem_cons.mpr ⟨⟨_, rfl⟩, (ih next io₁).2⟩⟩
      · exact ⟨rfl, List.forall_mem_nil _⟩

theorem tracedLocate_eq (f : File) (index : Nat) (io : Outcomes) :
    (f.tracedLocate v index io).1 = f.locate v index io ∧
      ∀ event ∈ (f.tracedLocate v index io).2, ∃ lba, event = .fat lba := by
  by_cases hcache : v.metadata.validCluster f.cacheCluster = true ∧
      f.cacheIndex ≤ index
  · have hwalk := tracedWalk_eq (v := v) (index - f.cacheIndex)
      f.cacheCluster io
    simp only [tracedLocate, locate, if_pos hcache]
    refine ⟨?_, hwalk.2⟩
    rewrite [hwalk.1]
    rfl
  · have hwalk := tracedWalk_eq (v := v) index f.firstCluster io
    simp only [tracedLocate, locate, if_neg hcache]
    refine ⟨?_, hwalk.2⟩
    rewrite [hwalk.1]
    rfl

/-- The sectors of a transfer out of a valid cluster are its own. -/
theorem tracedChunk_eq {c : Nat} (pos remaining : Nat) (r : Reading)
    (hvalid : v.metadata.validCluster c = true) :
    (tracedChunk v c pos remaining r).1 = readChunk v c pos remaining r ∧
      ∀ event ∈ (tracedChunk v c pos remaining r).2,
        event.DataWithin v.metadata.dataStartSector
          v.metadata.totalSectors := by
  have hrange := cluster_within hvalid
  have hwithin : pos % v.metadata.clusterBytes <
      v.metadata.sectorsPerCluster * 512 := Nat.mod_lt pos (clusterBytes_pos v)
  have hsector : pos % v.metadata.clusterBytes / kSector <
      v.metadata.sectorsPerCluster := Nat.div_lt_of_lt_mul
    (by rwa [Nat.mul_comm])
  simp only [tracedChunk, readChunk, wholeSectors]
  -- the quotients have their bounds; with them folded away, both branches
  -- ask for sectors of the cluster by linear arithmetic alone
  generalize remaining / kSector % 2 ^ 32 = whole
  generalize pos % v.metadata.clusterBytes / kSector = index at *
  by_cases hdirect : pos % v.metadata.clusterBytes % kSector = 0 ∧
      remaining ≥ kSector
  · rw [if_pos hdirect, if_pos hdirect]
    exact ⟨rfl, List.forall_mem_singleton.mpr ⟨by omega, by omega⟩⟩
  · rw [if_neg hdirect, if_neg hdirect]
    exact ⟨rfl, List.forall_mem_singleton.mpr ⟨by omega, by omega⟩⟩

theorem tracedStep_eq (offset len : Nat) (r : Reading) :
    (tracedStep v offset len r).1 = readStep v offset len r ∧
      ∀ event ∈ (tracedStep v offset len r).2,
        event.DataWithin v.metadata.dataStartSector
          v.metadata.totalSectors := by
  have hlocate := tracedLocate_eq (v := v) r.file
    ((offset + r.done) / v.metadata.clusterBytes) r.io
  simp only [tracedStep, readStep]
  cases htraced : r.file.tracedLocate v
      ((offset + r.done) / v.metadata.clusterBytes) r.io with
  | mk found events =>
  rw [htraced] at hlocate
  obtain ⟨hfound, hevents⟩ := hlocate
  have hfat : ∀ event ∈ events, event.DataWithin
      v.metadata.dataStartSector v.metadata.totalSectors := by
    intro event h
    obtain ⟨lba, rfl⟩ := hevents event h
    exact Event.dataWithin_fat lba _ _
  rw [← hfound]
  cases found with
  | mk c io =>
  cases c with
  | none => exact ⟨rfl, hfat⟩
  | some c =>
      have hchunk := tracedChunk_eq (offset + r.done) (len - r.done)
        { r with
          file := r.file.moveCursor
            ((offset + r.done) / v.metadata.clusterBytes) c
          io := io } (locate_valid hfound.symm)
      exact ⟨hchunk.1, List.forall_mem_append.mpr ⟨hfat, hchunk.2⟩⟩

theorem tracedLoop_eq {offset len fuel : Nat} {r : Reading}
    {result : Int × Reading} (h : readLoop v offset len fuel r = some result) :
    ∃ events, tracedLoop v offset len fuel r = some (result, events) ∧
      ∀ event ∈ events, event.DataWithin v.metadata.dataStartSector
        v.metadata.totalSectors := by
  -- both loops take the same steps, so the fuel of one serves the other
  induction fuel generalizing r with
  | zero => cases h
  | succ fuel ih =>
      rw [readLoop] at h
      rw [tracedLoop]
      split at h
      · rename_i hdone
        rw [if_pos hdone]
        have hstep := tracedStep_eq (v := v) offset len r
        cases htraced : tracedStep v offset len r with
        | mk next events =>
        rw [htraced] at hstep
        rw [← hstep.1] at h
        cases next with
        | mk ok r₁ =>
        cases ok with
        | false =>
            cases h
            exact ⟨events, rfl, hstep.2⟩
        | true =>
            obtain ⟨rest, hrest, hin⟩ := ih h
            simp only [hrest, Option.bind_eq_bind, Option.bind_some]
            exact ⟨_, rfl, List.forall_mem_append.mpr ⟨hstep.2, hin⟩⟩
      · rename_i hdone
        rw [if_neg hdone]
        cases h
        exact ⟨[], rfl, List.forall_mem_nil _⟩

/-- A read returns, and asks for nothing outside the data region on behalf of
the file's bytes. -/
theorem tracedRead_eq (hfs : f.fs = some v) (offset len : Nat) (out : Mem)
    (io : Outcomes) :
    ∃ result events, f.read offset out len io = some result ∧
      f.tracedRead offset out len io = some (result, events) ∧
      ∀ event ∈ events, event.DataWithin v.metadata.dataStartSector
        v.metadata.totalSectors := by
  simp only [read, tracedRead, hfs]
  split
  · exact ⟨_, [], rfl, rfl, List.forall_mem_nil _⟩
  split
  · exact ⟨_, [], rfl, rfl, List.forall_mem_nil _⟩
  rename_i hlen
  have hsize := f.size_lt
  obtain ⟨result, hresult⟩ := Option.isSome_iff_exists.mp
    (@readLoop_isSome v offset (min len (f.size - offset)) _ ⟨f, out, 0, io⟩
      (by omega) (Nat.lt_succ_self _))
  obtain ⟨events, hevents, hin⟩ := tracedLoop_eq hresult
  exact ⟨result, events, hresult, hevents, hin⟩

end Trace

end File

namespace Fat32

variable {v : Fat32}

/-- The test of the mount singles out the powers of two. -/
theorem sectorsPerCluster_eq_pow (v : Fat32) :
    ∃ k, v.metadata.sectorsPerCluster = 2 ^ k := by
  have g := geometryOf v
  -- the field is one byte
  have hall : ∀ n < 2 ^ 8, 0 < n → n &&& (n - 1) = 0 → ∃ k < 8, n = 2 ^ k := by
    decide +kernel
  obtain ⟨k, -, hk⟩ := hall _ g.sectorsPerCluster_lt g.sectorsPerCluster_pos
    g.powerOfTwo
  exact ⟨k, hk⟩

theorem clusterLba_add_le {c c' : Nat}
    (h : v.metadata.validCluster c = true)
    (h' : v.metadata.validCluster c' = true) (hlt : c < c') :
    v.metadata.clusterLba c + v.metadata.sectorsPerCluster ≤
      v.metadata.clusterLba c' := by
  have hc := validCluster_iff.mp h
  rw [clusterLba_add h, clusterLba_eq h']
  exact Nat.add_le_add_left (Nat.mul_le_mul_right _ (by omega)) _

theorem clusters_disjoint {c c' : Nat}
    (h : v.metadata.validCluster c = true)
    (h' : v.metadata.validCluster c' = true) (hne : c ≠ c') :
    v.metadata.clusterLba c + v.metadata.sectorsPerCluster ≤
        v.metadata.clusterLba c' ∨
      v.metadata.clusterLba c' + v.metadata.sectorsPerCluster ≤
        v.metadata.clusterLba c := by
  rcases Nat.lt_or_gt_of_ne hne with hlt | hgt
  · exact Or.inl (clusterLba_add_le h h' hlt)
  · exact Or.inr (clusterLba_add_le h' h hgt)

/-- The geometry of a volume that mounts is exact, its clusters have sectors
of their own in the data region, and neither `lookup` nor `read` asks for data
anywhere else. -/
theorem mount_validates (v : Fat32) :
    (∃ k, v.metadata.sectorsPerCluster = 2 ^ k) ∧
    v.metadata.dataStartSector = v.metadata.reservedSectors +
      v.metadata.numFats * v.metadata.sectorsPerFat ∧
    v.metadata.clusterCount = (v.metadata.totalSectors -
      (v.metadata.reservedSectors +
        v.metadata.numFats * v.metadata.sectorsPerFat)) /
      v.metadata.sectorsPerCluster ∧
    v.metadata.clusterCount + 2 < 2 ^ 32 ∧
    v.metadata.validCluster v.metadata.rootCluster = true ∧
    v.metadata.totalSectors ≤ v.disk.capacity ∧
    (∀ c, v.metadata.validCluster c = true →
      v.metadata.dataStartSector ≤ v.metadata.clusterLba c ∧
      v.metadata.clusterLba c + v.metadata.sectorsPerCluster ≤
        v.metadata.totalSectors) ∧
    (∀ c c', v.metadata.validCluster c = true →
      v.metadata.validCluster c' = true → c ≠ c' →
      v.metadata.clusterLba c + v.metadata.sectorsPerCluster ≤
          v.metadata.clusterLba c' ∨
        v.metadata.clusterLba c' + v.metadata.sectorsPerCluster ≤
          v.metadata.clusterLba c) ∧
    (∀ dirCluster name out io, ∃ events,
      checkedLookup v dirCluster name out io =
        some (lookup v dirCluster name out io, events) ∧
      ∀ event ∈ events, event.DataWithin v.metadata.dataStartSector
        v.metadata.totalSectors) ∧
    (∀ f : File, f.fs = some v → ∀ offset out len io, ∃ result events,
      f.read offset out len io = some result ∧
      f.tracedRead offset out len io = some (result, events) ∧
      ∀ event ∈ events, event.DataWithin v.metadata.dataStartSector
        v.metadata.totalSectors) := by
  have g := geometryOf v
  refine ⟨sectorsPerCluster_eq_pow v, g.dataStart_eq,
    g.dataStart_eq ▸ g.clusterCount_eq, clusterCount_add_two_lt v,
    g.root_valid, g.totalSectors_le, fun c h => cluster_within h,
    fun c c' h h' hne => clusters_disjoint h h' hne, ?_, ?_⟩
  · intro dirCluster name out io
    obtain ⟨events, hrun, hevents⟩ := checkedLookup_eq v dirCluster name out io
    exact ⟨events, hrun, hevents.within⟩
  · intro f hfs offset out len io
    exact File.tracedRead_eq hfs offset len out io

/-- Clusters 2 and 6 of the sample volume, and a read of its root. -/
theorem mount_validates_sample :
    sample.metadata.validCluster 2 = true ∧
    sample.metadata.validCluster 6 = true ∧
    sample.metadata.dataStartSector ≤ sample.metadata.clusterLba 6 ∧
    (sample.metadata.clusterLba 2 + sample.metadata.sectorsPerCluster ≤
        sample.metadata.clusterLba 6 ∨
      sample.metadata.clusterLba 6 + sample.metadata.sectorsPerCluster ≤
        sample.metadata.clusterLba 2) ∧
    ∃ result events,
      (fileOf sample (rootEntry sample)).read 0 (fun _ => 0) 16 allOk =
        some result ∧
      (fileOf sample (rootEntry sample)).tracedRead 0 (fun _ => 0) 16 allOk =
        some (result, events) ∧
      ∀ event ∈ events, event.DataWithin sample.metadata.dataStartSector
        sample.metadata.totalSectors := by
  have hfirst : sample.metadata.validCluster 2 = true := by decide +kernel
  have hlast : sample.metadata.validCluster 6 = true := by decide +kernel
  obtain ⟨-, -, -, -, -, -, hwithin, hdisjoint, -, hread⟩ :=
    mount_validates sample
  exact ⟨hfirst, hlast, (hwithin 6 hlast).1,
    hdisjoint 2 6 hfirst hlast (by decide), hread _ rfl 0 _ 16 allOk⟩

end Fat32

end IntroOs
