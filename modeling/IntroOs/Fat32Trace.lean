/-
The events of a directory scan.  Its requests for data stay inside the data
region, it starts on no more clusters than the volume has and one more, and on
a chain that never returns to a cluster it passes over every entry up to the
end of the directory or the match.
-/
import IntroOs.Fat32Checked
import IntroOs.Fat32Lookup
import IntroOs.Fat32Read

namespace IntroOs

open ByteMem LinkChain

namespace Fat32

open DiskReader

variable {v : Fat32} {name : List UInt8}

/-- The entries one pass of `lookup` looks at. -/
def pass (name : List UInt8) : List Mem → Lfn → List Mem
  | [], _ => []
  | e :: rest, lfn =>
      e :: match scanEntry name lfn e with
        | .more lfn => pass name rest lfn
        | _ => []

theorem pass_append (front back : List Mem) (lfn : Lfn) :
    pass name (front ++ back) lfn = pass name front lfn ++
      match scanEntries name front lfn with
      | .more lfn => pass name back lfn
      | _ => [] := by
  induction front generalizing lfn with
  | nil => rfl
  | cons e front ih =>
      rw [List.cons_append, pass, pass, scanEntries]
      cases scanEntry name lfn e with
      | more lfn =>
          simp only [List.cons_append]
          rw [ih lfn]
      | stop => rfl
      | found entry => rfl

theorem scanEntry_stop {lfn : Lfn} {e : Mem}
    (h : scanEntry name lfn e = .stop) : e 0 = 0x00 := by
  simp only [scanEntry, shortEntry] at h
  split at h
  · assumption
  · split at h
    · cases h
    · split at h
      · cases h
      · split at h
        · cases h
        · split at h <;> cases h

/-- A pass goes on to the end, to the entry that ends the directory, or to the
match. -/
theorem pass_end (name : List UInt8) (l : List Mem) (lfn : Lfn) :
    ∃ rest, l = pass name l lfn ++ rest ∧
      (rest = [] ∨ ∃ front e, pass name l lfn = front ++ [e] ∧
        (e 0 = 0x00 ∨
          scanEntries name l lfn = .found (Entry.ofShort e))) := by
  induction l generalizing lfn with
  | nil => exact ⟨[], rfl, Or.inl rfl⟩
  | cons e l ih =>
      rw [pass, scanEntries]
      cases h : scanEntry name lfn e with
      | more lfn =>
          obtain ⟨rest, hl, hend⟩ := ih lfn
          refine ⟨rest, congrArg (e :: ·) hl, ?_⟩
          rcases hend with hrest | ⟨front, last, hpass, hlast⟩
          · exact Or.inl hrest
          · exact Or.inr ⟨e :: front, last, congrArg (e :: ·) hpass, hlast⟩
      | stop =>
          exact ⟨l, rfl, Or.inr ⟨[], e, rfl, Or.inl (scanEntry_stop h)⟩⟩
      | found entry =>
          rw [eq_ofShort_of_found h]
          exact ⟨l, rfl, Or.inr ⟨[], e, rfl, Or.inr rfl⟩⟩

theorem scanEntries_len_le {l : List Mem} {lfn lfn' : Lfn}
    (h : scanEntries name l lfn = .more lfn') (hlen : lfn.len ≤ kLfnSize) :
    lfn'.len ≤ kLfnSize := by
  induction l generalizing lfn with
  | nil =>
      cases h
      exact hlen
  | cons e l ih =>
      rw [scanEntries] at h
      split at h
      · rename_i lfn₁ hentry
        exact ih h (scanEntry_len_le hentry hlen)
      · rename_i hmore
        exact absurd h (hmore lfn')

/-- The entries of a sector from `off` on. -/
def entriesFrom (sector : Mem) : Nat → Nat → List Mem
  | 0, _ => []
  | left + 1, off => entryAt sector off :: entriesFrom sector left (off + 32)

theorem entriesFrom_zero (sector : Mem) :
    entriesFrom sector (kSector / 32) 0 = entries sector := rfl

/-- The entry loop is in range from the first entry to the last. -/
theorem checkedEntries_eq (name : List UInt8) (sector : Mem) {left off : Nat}
    {lfn : Lfn} (hoff : off + 32 * left ≤ kSector)
    (hlen : lfn.len ≤ kLfnSize) :
    checkedEntries name sector left off lfn =
      some (scanEntries name (entriesFrom sector left off) lfn,
        (pass name (entriesFrom sector left off) lfn).map .entry) := by
  induction left generalizing off lfn with
  | zero => rfl
  | succ left ih =>
      rw [checkedEntries, checkedEntry_eq (by omega) hlen, entriesFrom,
        scanEntries, pass]
      simp only [Option.bind_eq_bind, Option.bind_some]
      cases h : scanEntry name lfn (entryAt sector off) with
      | more lfn =>
          simp only
          rw [ih (by omega) (scanEntry_len_le h hlen)]
          rfl
      | stop => rfl
      | found entry => rfl

/-- A request for data lies within sectors `lo` to `hi`. -/
def Event.DataWithin (lo hi : Nat) : Event → Prop
  | .data lba count => lo ≤ lba ∧ lba + count ≤ hi
  | _ => True

theorem Event.dataWithin_fat (lba lo hi : Nat) :
    (Event.fat lba).DataWithin lo hi := trivial

theorem Event.DataWithin.mono {lo hi lo' hi' : Nat} {event : Event}
    (h : event.DataWithin lo hi) (hlo : lo' ≤ lo) (hhi : hi ≤ hi') :
    event.DataWithin lo' hi' := by
  cases event with
  | data lba count => exact ⟨Nat.le_trans hlo h.1, Nat.le_trans h.2 hhi⟩
  | cluster => trivial
  | fat => trivial
  | entry => trivial

theorem examined_append (l l' : List Event) :
    examined (l ++ l') = examined l ++ examined l' :=
  List.filterMap_append

theorem scanned_append (l l' : List Event) :
    scanned (l ++ l') = scanned l ++ scanned l' :=
  List.filterMap_append

theorem examined_map_entry (l : List Mem) :
    examined (l.map .entry) = l := by
  simp [examined, List.filterMap_map]

theorem scanned_map_entry (l : List Mem) : scanned (l.map .entry) = [] := by
  simp [scanned, List.filterMap_map]

/-- What the events of a scan of `n` sectors from `lba` on are. -/
structure SectorEvents (v : Fat32) (name : List UInt8) (n lba : Nat)
    (lfn : Lfn) (io : Outcomes) (events : List Event) : Prop where
  within : ∀ event ∈ events, event.DataWithin lba (lba + n)
  scanned : scanned events = []
  examined : io = allOk → lba + n ≤ v.disk.capacity →
    examined events = pass name (sectorEntries v lba n) lfn

/-- The events of the first sector of a scan. -/
def sectorEvents (name : List UInt8) (lba : Nat) (sector : Mem) (lfn : Lfn) :
    List Event :=
  .data lba 1 :: (pass name (entries sector) lfn).map .entry

theorem sectorEvents_within {lba n : Nat} {sector : Mem} {lfn : Lfn}
    {event : Event} (h : event ∈ sectorEvents name lba sector lfn) :
    event.DataWithin lba (lba + (n + 1)) := by
  rcases List.mem_cons.mp h with rfl | h
  · exact ⟨Nat.le_refl lba, by omega⟩
  · obtain ⟨e, -, rfl⟩ := List.mem_map.mp h
    trivial

theorem scanned_sectorEvents (lba : Nat) (sector : Mem) (lfn : Lfn) :
    scanned (sectorEvents name lba sector lfn) = [] :=
  scanned_map_entry _

theorem examined_sectorEvents (lba : Nat) (sector : Mem) (lfn : Lfn) :
    examined (sectorEvents name lba sector lfn) =
      pass name (entries sector) lfn :=
  examined_map_entry _

/-- A sector at which the scan ends, by a match or by the end of the
directory. -/
theorem sectorEvents_last {n lba : Nat} {sector : Mem} {lfn : Lfn}
    {io : Outcomes} (hsector : sector = v.disk.sectorAt lba)
    (hdone : ∀ next, scanEntries name (entries sector) lfn ≠ .more next) :
    SectorEvents v name (n + 1) lba lfn io
      (sectorEvents name lba sector lfn) where
  within _ h := sectorEvents_within h
  scanned := scanned_sectorEvents lba sector lfn
  examined _ _ := by
    rw [examined_sectorEvents, sectorEntries_succ, pass_append, ← hsector]
    cases hscan : scanEntries name (entries sector) lfn with
    | more next => exact absurd hscan (hdone next)
    | stop => rw [List.append_nil]
    | found entry => rw [List.append_nil]

/-- The sector loop never faults, and its events are as they should be. -/
theorem checkedSectors_eq (v : Fat32) (name : List UInt8) (n lba : Nat)
    {lfn : Lfn} (io : Outcomes) (hlen : lfn.len ≤ kLfnSize) :
    ∃ events, checkedSectors v name n lba lfn io =
        some (scanSectors v name n lba lfn io, events) ∧
      SectorEvents v name n lba lfn io events := by
  induction n generalizing lba lfn io with
  | zero => exact ⟨[], rfl, List.forall_mem_nil _, rfl, fun _ _ => rfl⟩
  | succ n ih =>
      rw [checkedSectors, scanSectors]
      cases hread : v.disk.readSector lba io with
      | mk r io₁ =>
      cases r with
      | none =>
          refine ⟨[.data lba 1], rfl,
            List.forall_mem_singleton.mpr ⟨Nat.le_refl lba, by omega⟩, rfl, ?_⟩
          -- a read that fails is not one where all reads succeed
          intro hio hrange
          rw [hio, Config.readSector_allOk (geometryOf v).disk_valid
            (by omega)] at hread
          cases hread
      | some sector =>
          have hsector :=
            Config.eq_sectorAt_of_readSector (congrArg Prod.fst hread)
          have hentries := checkedEntries_eq name sector
            (show 0 + 32 * (kSector / 32) ≤ kSector by decide) hlen
          rw [entriesFrom_zero] at hentries
          simp only [hentries, Option.bind_eq_bind, Option.bind_some]
          cases hscan : scanEntries name (entries sector) lfn with
          | more lfn₁ =>
              obtain ⟨rest, hrest, hevents⟩ :=
                ih (lba + 1) io₁ (scanEntries_len_le hscan hlen)
              simp only [hrest, Option.bind_some]
              refine ⟨sectorEvents name lba sector lfn ++ rest, rfl, ?_, ?_, ?_⟩
              · exact List.forall_mem_append.mpr
                  ⟨fun event h => sectorEvents_within h, fun event h =>
                    (hevents.within event h).mono (by omega) (by omega)⟩
              · rw [scanned_append, scanned_sectorEvents, hevents.scanned]
                rfl
              · intro hio hrange
                rw [hio, Config.readSector_allOk (geometryOf v).disk_valid
                  (by omega)] at hread
                rw [examined_append, examined_sectorEvents,
                  hevents.examined (Prod.mk.inj hread).2.symm (by omega),
                  sectorEntries_succ, pass_append, ← hsector, hscan]
          | stop =>
              exact ⟨sectorEvents name lba sector lfn, rfl,
                sectorEvents_last hsector (by simp [hscan])⟩
          | found entry =>
              exact ⟨sectorEvents name lba sector lfn, rfl,
                sectorEvents_last hsector (by simp [hscan])⟩

/-- What the events of a scan of at most `hops` clusters from `cluster` on
are. -/
structure ChainEvents (v : Fat32) (name : List UInt8) (hops cluster : Nat)
    (lfn : Lfn) (io : Outcomes) (events : List Event) : Prop where
  within : ∀ event ∈ events, event.DataWithin v.metadata.dataStartSector
    v.metadata.totalSectors
  scanned : (scanned events).length ≤ hops
  examined : io = allOk →
    examined events = pass name (visited v hops cluster) lfn

/-- One round of the cluster loop: the events of its sectors, and those of
what comes behind them. -/
theorem SectorEvents.round {hops cluster : Nat} {lfn : Lfn} {io : Outcomes}
    {events rest : List Event}
    (h : SectorEvents v name v.metadata.sectorsPerCluster
      (v.metadata.clusterLba cluster) lfn io events)
    (hvalid : v.metadata.validCluster cluster = true)
    (hwithin : ∀ event ∈ rest, event.DataWithin v.metadata.dataStartSector
      v.metadata.totalSectors)
    (hscanned : (Fat32.scanned rest).length ≤ hops)
    (hexamined : io = allOk → Fat32.examined rest =
      match scanEntries name (clusterEntries v cluster) lfn with
      | .more lfn => pass name (visited v hops (fatLink v cluster)) lfn
      | _ => []) :
    ChainEvents v name (hops + 1) cluster lfn io
      (.cluster cluster :: events ++ rest) where
  within := by
    intro event hmem
    have hrange := cluster_within hvalid
    rcases List.mem_append.mp hmem with hmem | hmem
    · rcases List.mem_cons.mp hmem with rfl | hmem
      · trivial
      · exact (h.within event hmem).mono hrange.1 hrange.2
    · exact hwithin event hmem
  scanned := by
    have hround : Fat32.scanned (.cluster cluster :: events) =
        cluster :: Fat32.scanned events := rfl
    rw [scanned_append, hround, h.scanned, List.length_append]
    simp only [List.length_singleton]
    omega
  examined := by
    intro hio
    have hround : Fat32.examined (.cluster cluster :: events) =
        Fat32.examined events := rfl
    rw [examined_append, hround, hexamined hio,
      h.examined hio (cluster_inRange hvalid (Nat.le_refl _)), visited,
      if_pos hvalid, pass_append, clusterEntries]

/-- The round in which the scan ends. -/
theorem SectorEvents.last {hops cluster : Nat} {lfn : Lfn} {io : Outcomes}
    {events : List Event}
    (h : SectorEvents v name v.metadata.sectorsPerCluster
      (v.metadata.clusterLba cluster) lfn io events)
    (hvalid : v.metadata.validCluster cluster = true)
    (hdone : io = allOk → ∀ next,
      scanEntries name (clusterEntries v cluster) lfn ≠ .more next) :
    ChainEvents v name (hops + 1) cluster lfn io (.cluster cluster :: events) := by
  have hround : ChainEvents v name (hops + 1) cluster lfn io
      (.cluster cluster :: events ++ []) := by
    refine h.round hvalid nofun (Nat.zero_le _) ?_
    intro hio
    cases hscan : scanEntries name (clusterEntries v cluster) lfn with
    | more next => exact absurd hscan (hdone hio next)
    | stop => rfl
    | found entry => rfl
  rwa [List.append_nil] at hround

/-- The sectors of a cluster as the scan with all reads good sees them. -/
theorem scanEntries_of_scanSectors {cluster : Nat} {lfn : Lfn} {r : Scan}
    {io : Outcomes} (hvalid : v.metadata.validCluster cluster = true)
    (h : scanSectors v name v.metadata.sectorsPerCluster
      (v.metadata.clusterLba cluster) lfn allOk = (r, io)) :
    scanEntries name (clusterEntries v cluster) lfn = r ∧ io = allOk := by
  rw [scanSectors_allOk lfn (cluster_inRange hvalid (Nat.le_refl _))] at h
  exact ⟨congrArg Prod.fst h, (congrArg Prod.snd h).symm⟩

/-- The cluster loop never faults, its counter never wraps, and its events are
as they should be. -/
theorem checkedChain_eq {fuel hops left cluster : Nat} {lfn : Lfn}
    (io : Outcomes) (hhops : hops + left = v.metadata.clusterCount + 1)
    (hfuel : left < fuel) (hlen : lfn.len ≤ kLfnSize) :
    ∃ events, checkedChain v name fuel hops cluster lfn io =
        some (scanChain v name left cluster lfn io, events) ∧
      ChainEvents v name left cluster lfn io events := by
  -- on the rounds left, which with the rounds done are always one more than
  -- the volume has clusters
  induction left generalizing fuel hops cluster lfn io with
  | zero =>
      obtain ⟨fuel, rfl⟩ := Nat.exists_eq_succ_of_ne_zero (by omega : fuel ≠ 0)
      rw [checkedChain, if_neg (by omega)]
      exact ⟨[], rfl, List.forall_mem_nil _, Nat.le_refl 0, fun _ => rfl⟩
  | succ left ih =>
      obtain ⟨fuel, rfl⟩ := Nat.exists_eq_succ_of_ne_zero (by omega : fuel ≠ 0)
      rw [checkedChain, scanChain]
      by_cases hvalid : v.metadata.validCluster cluster = true
      · rw [if_pos ⟨hvalid, by omega⟩, if_pos hvalid]
        obtain ⟨events, hsectors, hround⟩ := checkedSectors_eq v name
          v.metadata.sectorsPerCluster (v.metadata.clusterLba cluster) io hlen
        simp only [hsectors, Option.bind_eq_bind, Option.bind_some]
        cases hscan : scanSectors v name v.metadata.sectorsPerCluster
            (v.metadata.clusterLba cluster) lfn io with
        | mk r io₁ =>
        cases r with
        | stop =>
            refine ⟨.cluster cluster :: events, rfl, hround.last hvalid ?_⟩
            rintro rfl
            simp [(scanEntries_of_scanSectors hvalid hscan).1]
        | found entry =>
            refine ⟨.cluster cluster :: events, rfl, hround.last hvalid ?_⟩
            rintro rfl
            simp [(scanEntries_of_scanSectors hvalid hscan).1]
        | more lfn₁ =>
            have hlen₁ : lfn₁.len ≤ kLfnSize :=
              scanEntries_len_le (scanSectors_agree hscan (by simp)) hlen
            simp only
            cases hnext : fatNext v cluster io₁ with
            | mk next io₂ =>
            cases next with
            | none =>
                refine ⟨.cluster cluster :: events ++
                  [.fat (fatSector v cluster)], rfl,
                  hround.round hvalid (List.forall_mem_singleton.mpr
                    (Event.dataWithin_fat _ _ _)) (Nat.zero_le _) ?_⟩
                rintro rfl
                rw [(scanEntries_of_scanSectors hvalid hscan).2,
                  fatNext_allOk hvalid] at hnext
                cases hnext
            | some next =>
                -- the 32-bit counter never gets to its end
                have hcount := clusterCount_add_two_lt v
                have hwrap : (hops + 1) % 2 ^ 32 = hops + 1 :=
                  Nat.mod_eq_of_lt (by omega)
                obtain ⟨rest, hrest, hevents⟩ := @ih fuel (hops + 1) next
                  lfn₁ io₂ (by omega) (by omega) hlen₁
                simp only [hwrap, hrest, Option.bind_some, List.append_assoc]
                refine ⟨_, rfl, hround.round hvalid
                  (List.forall_mem_cons.mpr
                    ⟨Event.dataWithin_fat _ _ _, hevents.within⟩)
                  hevents.scanned ?_⟩
                rintro rfl
                obtain ⟨hentries, rfl⟩ :=
                  scanEntries_of_scanSectors hvalid hscan
                rw [fatNext_allOk hvalid] at hnext
                obtain ⟨hlink, rfl⟩ := Prod.mk.inj hnext
                rw [hentries, Option.some.inj hlink]
                exact hevents.examined rfl
      · rw [if_neg (by simp [hvalid]), if_neg hvalid]
        refine ⟨[], rfl, List.forall_mem_nil _, Nat.zero_le _, ?_⟩
        intro _
        rw [visited, if_neg hvalid]
        rfl

/-- The walk along the links, as long as the clusters are valid. -/
theorem clusterAt_iterate {c i : Nat}
    (h : ∀ k ≤ i, v.metadata.validCluster ((fatLink v)^[k] c) = true) :
    clusterAt v c i = some ((fatLink v)^[i] c) := by
  have hchain : ∀ k ≤ i, chain v c k = some ((fatLink v)^[k] c) := by
    intro k hk
    induction k with
    | zero => rfl
    | succ k ih =>
        rw [chain_succ (ih (by omega)), if_pos (h k (by omega)),
          Function.iterate_succ_apply']
  exact clusterAt_eq_some_iff.mpr ⟨hchain i (Nat.le_refl i), h i (Nat.le_refl i)⟩

/-- A chain that comes back to no cluster ends. -/
theorem exists_clusterChain {c : Nat}
    (h : ∀ i j c', clusterAt v c i = some c' → clusterAt v c j = some c' →
      i = j) :
    ∃ clusters, ClusterChain v c clusters := by
  apply Chain.exists_of_injective
    (s := Finset.Ico 2 (v.metadata.clusterCount + 2))
  · intro x hx
    exact Finset.mem_Ico.mpr (validCluster_iff.mp hx)
  · intro i j hij hvalid heq
    have hi := clusterAt_iterate (i := i) fun k hk => hvalid k (by omega)
    have hj := clusterAt_iterate hvalid
    exact absurd (h i j _ hi (by rw [hj, heq])) (by omega)

theorem checkedLookup_eq (v : Fat32) (dirCluster : Nat) (name : List UInt8)
    (out : Entry) (io : Outcomes) :
    ∃ events, checkedLookup v dirCluster name out io =
        some (lookup v dirCluster name out io, events) ∧
      ChainEvents v name (v.metadata.clusterCount + 1) dirCluster Lfn.start io
        events := by
  obtain ⟨events, hrun, hevents⟩ :=
    @checkedChain_eq v name (v.metadata.clusterCount + 2) 0
      (v.metadata.clusterCount + 1) dirCluster Lfn.start io (by omega)
      (by omega) (Nat.zero_le _)
  refine ⟨events, ?_, hevents⟩
  rw [checkedLookup, hrun, lookup, Option.bind_eq_bind, Option.bind_some]
  cases scanChain v name (v.metadata.clusterCount + 1) dirCluster Lfn.start
      io with
  | mk r io₁ => cases r <;> rfl

/-- `lookup` on any volume: no access to its arrays is out of range and its
loops end, it starts on at most one cluster more than the volume has, and a
chain that comes back to no cluster is passed over to the end of the
directory or the match. -/
theorem lookup_survives (v : Fat32) (dirCluster : Nat) (name : List UInt8)
    (out : Entry) :
    (∀ io, ∃ events, checkedLookup v dirCluster name out io =
        some (lookup v dirCluster name out io, events) ∧
      (scanned events).length ≤ v.metadata.clusterCount + 1) ∧
    ((∀ i j c, clusterAt v dirCluster i = some c →
        clusterAt v dirCluster j = some c → i = j) →
      ∃ clusters events rest, ClusterChain v dirCluster clusters ∧
        checkedLookup v dirCluster name out allOk =
          some (lookup v dirCluster name out allOk, events) ∧
        clusters.flatMap (clusterEntries v) = examined events ++ rest ∧
        (rest = [] ∨ ∃ front e, examined events = front ++ [e] ∧
          (e 0 = 0x00 ∨ lookup v dirCluster name out allOk =
            (true, Entry.ofShort e, allOk)))) := by
  constructor
  · intro io
    obtain ⟨events, hrun, hevents⟩ := checkedLookup_eq v dirCluster name out io
    exact ⟨events, hrun, hevents.scanned⟩
  · intro hrepeat
    obtain ⟨clusters, hchain⟩ := exists_clusterChain hrepeat
    obtain ⟨events, hrun, hevents⟩ :=
      checkedLookup_eq v dirCluster name out allOk
    have hpass := hevents.examined rfl
    rw [← directory, directory_of_chain hchain] at hpass
    obtain ⟨rest, hsplit, hend⟩ := pass_end name
      (clusters.flatMap (clusterEntries v)) Lfn.start
    rw [← hpass] at hsplit hend
    refine ⟨clusters, events, rest, hchain, hrun, hsplit, ?_⟩
    rcases hend with hrest | ⟨front, e, hlast, hstop | hfound⟩
    · exact Or.inl hrest
    · exact Or.inr ⟨front, e, hlast, Or.inl hstop⟩
    · refine Or.inr ⟨front, e, hlast, Or.inr ?_⟩
      rw [lookup_allOk, directory_of_chain hchain, hfound]
      rfl

/-- A volume whose root fills cluster 2 with deleted entries and goes on in
cluster 3, where the file `A` is. -/
def longRootSector : Nat → List (Nat × List UInt8)
  | 1 => [(8, [0x03, 0x00, 0x00, 0x00, 0xF8, 0xFF, 0xFF, 0x0F,
      0xF8, 0xFF, 0xFF, 0x0F])]
  | 2 => [(0, List.replicate 512 0xE5)]
  | 3 => [(0, layShort (0x41 :: List.replicate 10 0x20) 0x20 4 [3, 0, 0, 0])]
  | 4 => [(0, [0x78, 0x79, 0x7A])]
  | lba => sampleSector lba

def longRoot : Fat32 :=
  { disk := { sampleDisk with
      disk := fun lba i => layout (longRootSector lba) i }
    metadata := sample.metadata
    mounted := ⟨allOk, by decide +kernel⟩ }

theorem longRoot_once {i j c : Nat} (hi : clusterAt longRoot 2 i = some c)
    (hj : clusterAt longRoot 2 j = some c) : i = j := by
  have hfirst : clusterAt longRoot 2 0 = some 2 := by decide +kernel
  have hsecond : clusterAt longRoot 2 1 = some 3 := by decide +kernel
  have hend : clusterAt longRoot 2 2 = none := by decide +kernel
  have hbound : ∀ {k}, clusterAt longRoot 2 k = some c → k = 0 ∨ k = 1 := by
    intro k hk
    by_contra hlarge
    have htwo := clusterAt_of_le (show 2 ≤ k by omega)
      (Option.isSome_of_eq_some hk)
    rw [hend] at htwo
    cases htwo
  rcases hbound hi with rfl | rfl <;> rcases hbound hj with rfl | rfl
  · rfl
  · cases hi.symm.trans hfirst
    cases hsecond.symm.trans hj
  · cases hj.symm.trans hfirst
    cases hsecond.symm.trans hi
  · rfl

theorem longRoot_chain : ClusterChain longRoot 2 [2, 3] := by
  have hlink : fatLink longRoot 2 = 3 := by decide +kernel
  have hend : longRoot.metadata.validCluster (fatLink longRoot 3) = false := by
    decide +kernel
  refine .link rfl ?_
  rw [hlink]
  exact .link rfl (.stop (by rw [hend]; exact Bool.false_ne_true))

/-- `a` is found behind the sixteen entries of the first cluster. -/
theorem lookup_survives_longRoot : ∃ events rest,
    checkedLookup longRoot 2 [0x61] (rootEntry longRoot) allOk =
      some (lookup longRoot 2 [0x61] (rootEntry longRoot) allOk, events) ∧
    (lookup longRoot 2 [0x61] (rootEntry longRoot) allOk).1 = true ∧
    (scanned events).length ≤ 7 ∧
    [2, 3].flatMap (clusterEntries longRoot) = examined events ++ rest := by
  obtain ⟨hbound, hpass⟩ :=
    lookup_survives longRoot 2 [0x61] (rootEntry longRoot)
  obtain ⟨events, hrun, hscanned⟩ := hbound allOk
  obtain ⟨clusters, events', rest, hchain, hrun', hsplit, -⟩ :=
    hpass fun _ _ _ => longRoot_once
  cases hrun.symm.trans hrun'
  rw [hchain.unique longRoot_chain] at hsplit
  exact ⟨events, rest, hrun, by decide +kernel, hscanned, hsplit⟩

end Fat32

end IntroOs
