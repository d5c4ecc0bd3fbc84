/-
The file system as programs whose only requests are `read_sectors` calls.
Run on a disk of which the outcomes of the `read_one` calls are given, each
program is the function of the same name in `Fat32`.
-/
import IntroOs.Fat32Paths
import IntroOs.Fat32Read
import IntroOs.Interact

namespace IntroOs

open ByteMem
open Interact (Prog)
open DiskReader (Config kSectorSize)

/-- The arguments of `read_sectors`, but for the buffer. -/
structure Sectors where
  lba : Nat
  count : Nat
deriving DecidableEq, Repr

/-- What `read_sectors` comes back with: the bytes in the buffer, when it
returns true. -/
abbrev Fetched := Option (List UInt8)

/-- Programs over the disk. -/
abbrev DiskProg := Prog Sectors Fetched

namespace DiskReader

/-- The disk behind `Config.readSectors`. -/
def Config.serve (disk : Config) (req : Sectors) (io : Outcomes) :
    Fetched × Outcomes :=
  match disk.readSectors req.lba req.count (fun _ => 0) 0 io with
  | (true, buf, io) => (some ((List.range (req.count * kSectorSize)).map buf), io)
  | (false, _, io) => (none, io)

end DiskReader

namespace Program

open Fat32 (Entry Lfn Scan kSector le16 le32)

def readSectors (lba count : Nat) : DiskProg Fetched := .request ⟨lba, count⟩

/-- A buffer with the bytes that have come. -/
def buffer (bytes : List UInt8) : Mem := fun k => bytes.getD k 0

/-- One sector, into a local buffer. -/
def readSector (lba : Nat) : DiskProg (Option Mem) := do
  let fetched ← readSectors lba 1
  pure (fetched.map buffer)

def freeClustersHint (m : Fat32Metadata) (fsinfoSector : Nat) :
    DiskProg Nat :=
  if fsinfoSector ≠ 0 ∧ fsinfoSector < m.reservedSectors then do
    match ← readSector fsinfoSector with
    | none => pure 0xFFFFFFFF
    | some sector =>
        if le32 sector 0 = 0x41615252 ∧ le32 sector 484 = 0x61417272 then
          pure (le32 sector 488)
        else pure 0xFFFFFFFF
  else pure 0xFFFFFFFF

/-- `Fat32::Fat32`. -/
def mount (disk : Config) : DiskProg (Option Fat32Metadata) :=
  if disk.valid = false then pure none
  else do
    match ← readSector 0 with
    | none => pure none
    | some sector =>
        if Fat32.isFat32 sector then
          match Fat32.geometry (Fat32.bootFields sector) disk.sectorCount with
          | none => pure none
          | some m => do
              let hint ← freeClustersHint m (le16 sector 48)
              pure (some { m with freeClustersHint := hint })
        else pure none

/-- `Fat32::fat_next`. -/
def fatNext (v : Fat32) (cluster : Nat) : DiskProg (Option Nat) := do
  let byteOff := cluster * 4 % 2 ^ 32
  match ← readSector (v.metadata.reservedSectors + byteOff / kSector) with
  | none => pure none
  | some sector => pure (some (le32 sector (byteOff % kSector) % 2 ^ 28))

def scanSectors (name : List UInt8) : Nat → Nat → Lfn → DiskProg Scan
  | 0, _, lfn => pure (.more lfn)
  | n + 1, lba, lfn => do
      match ← readSector lba with
      | none => pure .stop
      | some sector =>
          match Fat32.scanEntries name (Fat32.entries sector) lfn with
          | .more lfn => scanSectors name n (lba + 1) lfn
          | r => pure r

def scanChain (v : Fat32) (name : List UInt8) :
    Nat → Nat → Lfn → DiskProg (Option Entry)
  | 0, _, _ => pure none
  | hops + 1, cluster, lfn =>
      if v.metadata.validCluster cluster then do
        match ← scanSectors name v.metadata.sectorsPerCluster
            (v.metadata.clusterLba cluster) lfn with
        | .stop => pure none
        | .found entry => pure (some entry)
        | .more lfn =>
            match ← fatNext v cluster with
            | none => pure none
            | some next => scanChain v name hops next lfn
      else pure none

/-- `Fat32::lookup`. -/
def lookup (v : Fat32) (dirCluster : Nat) (name : List UInt8) (out : Entry) :
    DiskProg (Bool × Entry) := do
  match ← scanChain v name (v.metadata.clusterCount + 1) dirCluster
      Lfn.start with
  | some entry => pure (true, entry)
  | none => pure (false, out)

def findLoop (v : Fat32) :
    Nat → List UInt8 → Entry → DiskProg (Option (Option Entry))
  | 0, _, _ => pure none
  | fuel + 1, p, cur =>
      let p := p.dropWhile (· = Fat32.slash)
      if p = [] then pure (some (some cur))
      else
        let name := p.takeWhile (· ≠ Fat32.slash)
        if cur.dir = false then pure (some none)
        else if name.length > Fat32.kMaxNameLen then pure (some none)
        else do
          match ← lookup v (Fat32.dirCluster v cur) name cur with
          | (false, _) => pure (some none)
          | (true, cur) =>
              findLoop v fuel (p.dropWhile (· ≠ Fat32.slash)) cur

/-- `Fat32::find`. -/
def find (v : Fat32) (path : Option CString) : DiskProg (Option File) :=
  match path with
  | none => pure (some File.invalid)
  | some path => do
      match ← findLoop v (path.bytes.length + 1) path.bytes
          (Fat32.rootEntry v) with
      | none => pure none
      | some none => pure (some File.invalid)
      | some (some cur) => pure (some (Fat32.fileOf v cur))

def walk (v : Fat32) : Nat → Nat → DiskProg (Option Nat)
  | 0, cluster => pure (some cluster)
  | hops + 1, cluster =>
      if v.metadata.validCluster cluster then do
        match ← fatNext v cluster with
        | none => pure none
        | some next => walk v hops next
      else pure none

def locate (f : File) (v : Fat32) (index : Nat) : DiskProg (Option Nat) := do
  let walked : DiskProg (Option Nat) :=
    if v.metadata.validCluster f.cacheCluster ∧ f.cacheIndex ≤ index then
      walk v (index - f.cacheIndex) f.cacheCluster
    else walk v index f.firstCluster
  match ← walked with
  | none => pure none
  | some cluster =>
      pure (if v.metadata.validCluster cluster then some cluster else none)

/-- The variables of `read`'s loop. -/
structure Loop where
  file : File
  out : Mem
  done : Nat

/-- `read` on its way: it has given up and leaves the handle, or it goes on.
What a failed read leaves in the buffer is not looked at. -/
abbrev Step := File ⊕ Loop

def readChunk (v : Fat32) (cluster pos remaining : Nat) (l : Loop) :
    DiskProg Step :=
  let within := pos % v.metadata.clusterBytes
  let sectorInCluster := within / kSector
  let byteInSector := within % kSector
  let lba := v.metadata.clusterLba cluster + sectorInCluster
  if byteInSector = 0 ∧ remaining ≥ kSector then do
    let n := File.wholeSectors v.metadata remaining sectorInCluster
    match ← readSectors lba n with
    | none => pure (.inl l.file)
    | some bytes =>
        pure (.inr { l with
          out := copy l.out l.done (n * kSector) (buffer bytes)
          done := l.done + n * kSector })
  else do
    let chunk := min (kSector - byteInSector) remaining
    match ← readSector lba with
    | none => pure (.inl l.file)
    | some sector =>
        pure (.inr { l with
          out := copy l.out l.done chunk fun k => sector (byteInSector + k)
          done := l.done + chunk })

def readStep (v : Fat32) (offset len : Nat) (l : Loop) : DiskProg Step := do
  let pos := offset + l.done
  let index := pos / v.metadata.clusterBytes
  match ← locate l.file v index with
  | none => pure (.inl l.file)
  | some cluster =>
      readChunk v cluster pos (len - l.done)
        { l with file := l.file.moveCursor index cluster }

def readLoop (v : Fat32) (offset len : Nat) :
    Nat → Loop → DiskProg (Option Step)
  | 0, _ => pure none
  | fuel + 1, l =>
      if l.done < len then do
        match ← readStep v offset len l with
        | .inl file => pure (some (.inl file))
        | .inr l => readLoop v offset len fuel l
      else pure (some (.inr l))

/-- `File::read`. -/
def read (f : File) (offset : Nat) (out : Mem) (len : Nat) :
    DiskProg (Option Step) :=
  match f.fs with
  | none => pure (some (.inl f))
  | some v =>
      if f.dir then pure (some (.inl f))
      else if offset ≥ f.size ∨ len = 0 then pure (some (.inr ⟨f, out, 0⟩))
      else
        let len := min len (f.size - offset)
        readLoop v offset len (len + 1) ⟨f, out, 0⟩

section Runs

variable {disk : Config} {v : Fat32} {io : Outcomes}

theorem run_readSectors (disk : Config) (lba count : Nat) (io : Outcomes) :
    (readSectors lba count).run disk.serve io = disk.serve ⟨lba, count⟩ io :=
  Prog.run_request ..

/-- A read that succeeds, with the caller's buffer. -/
theorem readSectors_of_some {lba count pos : Nat} {buf : Mem}
    {bytes : List UInt8} {io' : Outcomes}
    (h : disk.serve ⟨lba, count⟩ io = (some bytes, io')) :
    disk.readSectors lba count buf pos io =
      (true, copy buf pos (count * kSectorSize) (buffer bytes), io') := by
  simp only [Config.serve, Config.readSectors] at h ⊢
  by_cases hrange : disk.valid = false ∨ lba > disk.capacity ∨
      count > disk.capacity - lba
  · simp only [if_pos hrange] at h
    cases h
  · simp only [if_neg hrange] at h ⊢
    cases htransfer : DiskReader.transfer count io with
    | mk ok r =>
        have hall : (DiskReader.transfer count io).1 = true →
            (DiskReader.transfer count io).2.1 = count :=
          DiskReader.transfer_ok
        rw [htransfer] at h hall
        cases ok with
        | false => cases h
        | true =>
            obtain ⟨hbytes, hio⟩ := Prod.mk.inj h
            have hcount : r.1 = count := hall rfl
            simp only [hcount] at hbytes ⊢
            rw [← Option.some.inj hbytes, hio]
            congr 2
            refine copy_congr fun k hk => ?_
            simp [buffer, copy, hk]

/-- A read that fails. -/
theorem readSectors_of_none {lba count : Nat} (pos : Nat) (buf : Mem)
    {io' : Outcomes} (h : disk.serve ⟨lba, count⟩ io = (none, io')) :
    ∃ out, disk.readSectors lba count buf pos io = (false, out, io') := by
  simp only [Config.serve, Config.readSectors] at h ⊢
  by_cases hrange : disk.valid = false ∨ lba > disk.capacity ∨
      count > disk.capacity - lba
  · simp only [if_pos hrange] at h ⊢
    cases h
    exact ⟨buf, rfl⟩
  · simp only [if_neg hrange] at h ⊢
    cases htransfer : DiskReader.transfer count io with
    | mk ok r =>
        rw [htransfer] at h
        cases ok with
        | true => cases h
        | false =>
            obtain ⟨-, rfl⟩ := Prod.mk.inj h
            exact ⟨_, rfl⟩

theorem length_of_some {req : Sectors} {bytes : List UInt8} {io' : Outcomes}
    (h : disk.serve req io = (some bytes, io')) :
    bytes.length = req.count * kSectorSize := by
  rw [Config.serve] at h
  split at h
  · cases h
    simp
  · cases h

theorem run_readSector (disk : Config) (lba : Nat) (io : Outcomes) :
    (readSector lba).run disk.serve io = disk.readSector lba io := by
  simp only [readSector, Prog.run_bind, run_readSectors, Config.readSector]
  cases hserve : disk.serve ⟨lba, 1⟩ io with
  | mk r io' =>
      cases r with
      | none =>
          obtain ⟨out, hread⟩ := readSectors_of_none 0 (fun _ => 0) hserve
          rw [hread]
          rfl
      | some bytes =>
          have hlength := length_of_some hserve
          dsimp only at hlength
          rw [readSectors_of_some hserve]
          have hbuffer : copy (fun _ => 0) 0 (1 * kSectorSize) (buffer bytes) =
              buffer bytes := by
            funext k
            by_cases hk : k < 1 * kSectorSize
            · rw [copy, if_pos (by omega), Nat.sub_zero]
            · rw [copy, if_neg (by omega), buffer, List.getD_eq_getElem?_getD,
                List.getElem?_eq_none (by omega), Option.getD_none]
          rw [hbuffer]
          rfl

theorem run_fatNext (v : Fat32) (cluster : Nat) (io : Outcomes) :
    (fatNext v cluster).run v.disk.serve io = v.fatNext cluster io := by
  simp only [fatNext, Fat32.fatNext, Prog.run_bind, run_readSector]
  cases v.disk.readSector _ io with
  | mk r io' => cases r <;> rfl

theorem run_scanSectors (v : Fat32) (name : List UInt8) (n lba : Nat)
    (lfn : Lfn) (io : Outcomes) :
    (scanSectors name n lba lfn).run v.disk.serve io =
      v.scanSectors name n lba lfn io := by
  induction n generalizing lba lfn io with
  | zero => rfl
  | succ n ih =>
      simp only [scanSectors, Fat32.scanSectors, Prog.run_bind, run_readSector]
      cases v.disk.readSector lba io with
      | mk r io' =>
          cases r with
          | none => rfl
          | some sector =>
              dsimp only
              cases Fat32.scanEntries name (Fat32.entries sector) lfn with
              | more lfn => exact ih ..
              | stop => rfl
              | found entry => rfl

theorem run_freeClustersHint (disk : Config) (m : Fat32Metadata)
    (fsinfoSector : Nat) (io : Outcomes) :
    (freeClustersHint m fsinfoSector).run disk.serve io =
      Fat32.freeClustersHint disk m fsinfoSector io := by
  simp only [freeClustersHint, Fat32.freeClustersHint, Prog.run_ite,
    Prog.run_bind, run_readSector]
  split
  · cases disk.readSector fsinfoSector io with
    | mk r io' =>
        cases r with
        | none => rfl
        | some sector =>
            dsimp only
            rw [Prog.run_ite]
            rfl
  · rfl

theorem run_mount (disk : Config) (io : Outcomes) :
    (mount disk).run disk.serve io = Fat32.mount disk io := by
  simp only [mount, Fat32.mount, Prog.run_ite, Prog.run_bind, run_readSector]
  split
  · rfl
  · cases disk.readSector 0 io with
    | mk r io' =>
        cases r with
        | none => rfl
        | some sector =>
            dsimp only
            rw [Prog.run_ite]
            split
            · cases Fat32.geometry (Fat32.bootFields sector)
                  disk.sectorCount with
              | none => rfl
              | some m =>
                  simp only [Prog.run_bind, run_freeClustersHint]
                  rfl
            · rfl

theorem run_scanChain (v : Fat32) (name : List UInt8) (hops cluster : Nat)
    (lfn : Lfn) (io : Outcomes) :
    (scanChain v name hops cluster lfn).run v.disk.serve io =
      v.scanChain name hops cluster lfn io := by
  induction hops generalizing cluster lfn io with
  | zero => rfl
  | succ hops ih =>
      simp only [scanChain, Fat32.scanChain, Prog.run_ite, Prog.run_bind,
        run_scanSectors]
      split
      · cases v.scanSectors name _ _ lfn io with
        | mk r io' =>
            cases r with
            | stop => rfl
            | found entry => rfl
            | more lfn =>
                simp only [Prog.run_bind, run_fatNext]
                cases v.fatNext cluster io' with
                | mk next io'' =>
                    cases next with
                    | none => rfl
                    | some next => exact ih ..
      · rfl

theorem run_lookup (v : Fat32) (dirCluster : Nat) (name : List UInt8)
    (out : Entry) (io : Outcomes) :
    (lookup v dirCluster name out).run v.disk.serve io =
      ((((v.lookup dirCluster name out io).1,
        (v.lookup dirCluster name out io).2.1)),
        (v.lookup dirCluster name out io).2.2) := by
  simp only [lookup, Fat32.lookup, Prog.run_bind, run_scanChain]
  cases v.scanChain name _ dirCluster Lfn.start io with
  | mk r io' => cases r <;> rfl

/-- The components of a path, one after the other. -/
theorem run_findLoop {fuel : Nat} {p : List UInt8} {cur : Entry}
    {r : Option Entry} {io' : Outcomes}
    (h : v.findLoop fuel p cur io = some (r, io')) :
    (findLoop v fuel p cur).run v.disk.serve io = (some r, io') := by
  induction fuel generalizing p cur io with
  | zero => cases h
  | succ fuel ih =>
      simp only [findLoop, Fat32.findLoop, Prog.run_ite, Prog.run_bind,
        run_lookup] at h ⊢
      split at h
      · next hend =>
          rw [if_pos hend]
          cases h
          rfl
      · next hend =>
          rw [if_neg hend]
          split at h
          · next hdir =>
              rw [if_pos hdir]
              cases h
              rfl
          · next hdir =>
              rw [if_neg hdir]
              split at h
              · next hlen =>
                  rw [if_pos hlen]
                  cases h
                  rfl
              · next hlen =>
                  rw [if_neg hlen]
                  split at h
                  · next hlookup =>
                      rw [hlookup]
                      cases h
                      rfl
                  · next hlookup =>
                      rw [hlookup]
                      exact ih h

/-- `find` returns, and its program with it. -/
theorem run_find (v : Fat32) (path : Option CString) (io : Outcomes) :
    ∃ f io', v.find path io = some (f, io') ∧
      (find v path).run v.disk.serve io = (some f, io') := by
  cases path with
  | none => exact ⟨File.invalid, io, rfl, rfl⟩
  | some path =>
      have hloop := Fat32.findLoop_eq (v := v) (Fat32.rootEntry v) io
        (Nat.lt_succ_self path.bytes.length)
      simp only [find, Fat32.find, Prog.run_bind, hloop, run_findLoop hloop]
      cases v.descendWith (Fat32.rootEntry v) (Fat32.components path.bytes)
          io with
      | mk r io' =>
          cases r with
          | none => exact ⟨_, _, rfl, rfl⟩
          | some entry => exact ⟨_, _, rfl, rfl⟩

theorem run_walk (v : Fat32) (hops cluster : Nat) (io : Outcomes) :
    (walk v hops cluster).run v.disk.serve io =
      File.walk v hops cluster io := by
  induction hops generalizing cluster io with
  | zero => rfl
  | succ hops ih =>
      simp only [walk, File.walk, Prog.run_ite, Prog.run_bind, run_fatNext]
      split
      · cases v.fatNext cluster io with
        | mk next io' =>
            cases next with
            | none => rfl
            | some next => exact ih ..
      · rfl

theorem run_locate (f : File) (v : Fat32) (index : Nat) (io : Outcomes) :
    (locate f v index).run v.disk.serve io = f.locate v index io := by
  simp only [locate, File.locate, Prog.run_bind, Prog.run_ite, run_walk]
  generalize (if v.metadata.validCluster f.cacheCluster = true ∧
    f.cacheIndex ≤ index then _ else File.walk v index f.firstCluster io) = r
  obtain ⟨found, io'⟩ := r
  cases found with
  | none => rfl
  | some cluster =>
      dsimp only
      split <;> rfl

/-- The variables of the loop with the outcomes to come. -/
def Loop.reading (l : Loop) (io : Outcomes) : File.Reading :=
  ⟨l.file, l.out, l.done, io⟩

/-- What a round of `read` is to its program. -/
def seen : Bool × File.Reading → Step × Outcomes
  | (false, r) => (.inl r.file, r.io)
  | (true, r) => (.inr ⟨r.file, r.out, r.done⟩, r.io)

theorem run_readChunk (v : Fat32) (cluster pos remaining : Nat) (l : Loop)
    (io : Outcomes) :
    (readChunk v cluster pos remaining l).run v.disk.serve io =
      seen (File.readChunk v cluster pos remaining (l.reading io)) := by
  simp only [readChunk, File.readChunk, Prog.run_ite, Prog.run_bind,
    run_readSectors, run_readSector, Loop.reading]
  split
  · cases hserve : v.disk.serve _ io with
    | mk r io' =>
        cases r with
        | none =>
            obtain ⟨out, hread⟩ := readSectors_of_none l.done l.out hserve
            rw [hread]
            rfl
        | some bytes =>
            rw [readSectors_of_some hserve]
            rfl
  · cases v.disk.readSector _ io with
    | mk r io' => cases r <;> rfl

theorem run_readStep (v : Fat32) (offset len : Nat) (l : Loop)
    (io : Outcomes) :
    (readStep v offset len l).run v.disk.serve io =
      seen (File.readStep v offset len (l.reading io)) := by
  simp only [readStep, File.readStep, Prog.run_bind, run_locate, Loop.reading]
  cases l.file.locate v _ io with
  | mk found io' =>
      cases found with
      | none => rfl
      | some cluster => exact run_readChunk ..

/-- How the value that `read` returns tells the two ends apart. -/
def ended : Int × File.Reading → Step × Outcomes
  | (value, r) => seen (decide (0 ≤ value), r)

/-- The rounds of `read`, to the one end or the other. -/
theorem run_readLoop {offset len fuel : Nat} {l : Loop} {value : Int}
    {r : File.Reading}
    (h : File.readLoop v offset len fuel (l.reading io) = some (value, r)) :
    (readLoop v offset len fuel l).run v.disk.serve io =
        (some (ended (value, r)).1, r.io) ∧
      (value = -1 ∨ value = r.done) := by
  induction fuel generalizing l io with
  | zero => cases h
  | succ fuel ih =>
      simp only [readLoop, File.readLoop, Prog.run_ite, Prog.run_bind,
        run_readStep] at h ⊢
      have hdone : (l.reading io).done = l.done := rfl
      rw [hdone] at h
      split at h
      · next hmore =>
          rw [if_pos hmore]
          cases hstep : File.readStep v offset len (l.reading io) with
          | mk ok r' =>
              rw [hstep] at h
              cases ok with
              | false =>
                  cases h
                  exact ⟨rfl, .inl rfl⟩
              | true => exact ih h
      · next hmore =>
          rw [if_neg hmore]
          cases h
          have hvalue : (0 : Int) ≤ (l.done : Int) := Int.natCast_nonneg _
          rw [ended, decide_eq_true hvalue]
          exact ⟨rfl, .inr rfl⟩

/-- `File::read` returns, and its program with it. -/
theorem run_read {f : File} (hfs : ∀ w, f.fs = some w → w = v)
    (offset : Nat) (out : Mem) (len : Nat) (io : Outcomes) :
    ∃ value r, f.read offset out len io = some (value, r) ∧
      (read f offset out len).run v.disk.serve io =
        (some (ended (value, r)).1, r.io) ∧
      (value = -1 ∨ value = r.done) := by
  rw [read, File.read]
  cases hvolume : f.fs with
  | none => exact ⟨-1, ⟨f, out, 0, io⟩, rfl, rfl, .inl rfl⟩
  | some w =>
      obtain rfl := hfs w hvolume
      dsimp only
      split
      · exact ⟨-1, ⟨f, out, 0, io⟩, rfl, rfl, .inl rfl⟩
      · split
        · exact ⟨0, ⟨f, out, 0, io⟩, rfl, rfl, .inr rfl⟩
        · have hsize := f.size_lt
          obtain ⟨⟨value, r⟩, hloop⟩ := Option.isSome_iff_exists.mp
            (@File.readLoop_isSome w offset _ _ ⟨f, out, 0, io⟩
              (show min len (f.size - offset) < 2 ^ 32 by omega)
              (Nat.lt_succ_self _))
          exact ⟨value, r, hloop, run_readLoop (l := ⟨f, out, 0⟩) hloop⟩

end Runs

end Program

namespace DiskReader

namespace Config

variable {disk : Config} {lba count pos : Nat} {buf out : Mem}
  {io io' : Outcomes}

/-- Sectors that arrive are those of a disk that never fails. -/
theorem readSectors_agree
    (h : disk.readSectors lba count buf pos io = (true, out, io')) :
    disk.readSectors lba count buf pos allOk = (true, out, allOk) := by
  rw [readSectors] at h ⊢
  by_cases hrange : disk.valid = false ∨ lba > disk.capacity ∨
      count > disk.capacity - lba
  · rw [if_pos hrange] at h
    cases h
  · rw [if_neg hrange] at h ⊢
    obtain ⟨hok, hout⟩ := Prod.mk.inj h
    rw [transfer_ok hok] at hout
    rw [transfer_allOk]
    exact congrArg (true, ·) (congrArg (·, allOk) (Prod.mk.inj hout).1)

theorem readSector_agree {sector : Mem}
    (h : disk.readSector lba io = (some sector, io')) :
    disk.readSector lba allOk = (some sector, allOk) := by
  rw [readSector] at h ⊢
  cases hread : disk.readSectors lba 1 (fun _ => 0) 0 io with
  | mk ok rest =>
      rw [hread] at h
      cases ok with
      | false => cases h
      | true =>
          cases h
          rw [readSectors_agree hread]

end Config

end DiskReader

namespace File

open Fat32 (fileByte)

variable {v : Fat32} {f : File} {io : Outcomes}

/-- The loop's variables on a disk that never fails. -/
def Reading.ok (r : Reading) : Reading := { r with io := allOk }

theorem readChunk_agree {c pos remaining : Nat} {r r' : Reading}
    (h : readChunk v c pos remaining r = (true, r')) :
    readChunk v c pos remaining r.ok = (true, r'.ok) := by
  simp only [readChunk, Reading.ok] at h ⊢
  split at h
  · next hdirect =>
      rw [if_pos hdirect]
      split at h
      · cases h
      · next out io' hread =>
          cases h
          rw [Config.readSectors_agree hread]
  · next hdirect =>
      rw [if_neg hdirect]
      split at h
      · cases h
      · next sector io' hread =>
          cases h
          rw [Config.readSector_agree hread]

theorem readStep_agree {offset len : Nat} {r r' : Reading}
    (hcache : CacheOk v r.file)
    (h : readStep v offset len r = (true, r')) :
    readStep v offset len r.ok = (true, r'.ok) := by
  simp only [readStep] at h ⊢
  split at h
  · cases h
  · next cluster io' hlocate =>
      have hat := locate_some hcache hlocate
      have hok := locate_allOk hcache
        ((offset + r.done) / v.metadata.clusterBytes)
      rw [hat] at hok
      simp only [Reading.ok, hok]
      exact readChunk_agree h

/-- Rounds that all succeed leave what they leave on a disk that never
fails. -/
theorem readLoop_agree {offset len fuel : Nat} {r r' : Reading} {value : Int}
    (hlen : offset + len < 2 ^ 32) (hcache : CacheOk v r.file)
    (h : readLoop v offset len fuel r = some (value, r'))
    (hvalue : value ≠ -1) :
    readLoop v offset len fuel r.ok = some (value, r'.ok) := by
  induction fuel generalizing r with
  | zero => cases h
  | succ fuel ih =>
      rw [readLoop] at h ⊢
      have hdone : r.ok.done = r.done := rfl
      rw [hdone]
      split at h
      · next hmore =>
          rw [if_pos hmore]
          split at h
          · cases h
            exact absurd rfl hvalue
          · next r₁ hstep =>
              have hkeeps := readStep_keeps len hcache
                (show offset + r.done < 2 ^ 32 by omega)
              rw [hstep] at hkeeps
              simp only [readStep_agree hcache hstep]
              exact ih hkeeps.cache h
      · next hmore =>
          rw [if_neg hmore]
          cases h
          rfl

/-- In front of a byte that is there, all are. -/
theorem fileByte_isSome_of_le {first pos pos' : Nat} (hle : pos ≤ pos')
    (h : (fileByte v first pos').isSome = true) :
    (fileByte v first pos).isSome = true := by
  rw [Fat32.fileByte_isSome_iff] at h ⊢
  intro i hi
  exact h i (Nat.le_trans hi (Nat.div_le_div_right hle))

/-- A read that succeeds is exact, whatever other reads of the disk did. -/
theorem read_succeeds (hfs : f.fs = some v) (hdir : f.dir = false)
    (hcache : CacheOk v f) {offset len : Nat} {out : Mem} {value : Int}
    {r : Reading} (h : f.read offset out len io = some (value, r))
    (hvalue : value ≠ -1) :
    value = f.readLen offset len ∧
      (∀ k < f.readLen offset len,
        fileByte v f.firstCluster (offset + k) = some (r.out k)) ∧
      ∀ k, f.readLen offset len ≤ k → r.out k = out k := by
  obtain ⟨r₀, hok, hout⟩ := read_allOk hfs hdir hcache offset len out
  rw [read_eq hfs hdir] at h hok
  by_cases hzero : f.readLen offset len = 0
  · rw [if_pos hzero] at h
    cases h
    rw [hzero]
    exact ⟨rfl, fun k hk => absurd hk (Nat.not_lt_zero k), fun _ _ => rfl⟩
  · have hpos := Nat.pos_of_ne_zero hzero
    rw [if_neg hzero] at h hok
    rw [if_neg hzero] at hok
    have hagree := readLoop_agree (readLen_add_lt hpos) hcache h hvalue
    obtain ⟨hread, hr⟩ := Prod.mk.inj (Option.some.inj (hagree.symm.trans hok))
    have hrout : r.out = delivered v f.firstCluster offset 0
        (f.readLen offset len) out := (congrArg Reading.out hr).trans hout
    have hlast : (fileByte v f.firstCluster
        (offset + f.readLen offset len - 1)).isSome = true := by
      by_contra hnone
      rw [readValue, if_neg hnone] at hread
      exact hvalue hread
    refine ⟨?_, fun k hk => ?_, fun k hk => ?_⟩
    · rw [hread, readValue, if_pos hlast]
    · obtain ⟨byte, hbyte⟩ := Option.isSome_iff_exists.mp
        (fileByte_isSome_of_le (show offset + k ≤ _ by omega) hlast)
      rw [hrout, delivered, if_pos ⟨Nat.zero_le k, hk⟩, hbyte]
      rfl
    · rw [hrout, delivered, if_neg (by omega)]

end File

end IntroOs
