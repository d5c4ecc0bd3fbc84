/-
The read-only FAT32 driver: mounting a volume, following the File Allocation
Table, scanning directories for long and short names, resolving paths and
reading files through the cursor cache.  Disk reads are explicit: every
operation consumes the results of the `read_one` calls it makes.
-/
import IntroOs.ByteMem
import IntroOs.VirtioDisk

namespace IntroOs

open ByteMem

/-- The results of the coming `read_one` calls, `true` for a sector that
arrives. -/
abbrev Outcomes := Nat → Bool

def Outcomes.tail (io : Outcomes) : Outcomes := fun k => io (k + 1)

/-- Every read succeeds from now on. -/
def allOk : Outcomes := fun _ => true

namespace DiskReader

/-- Byte `k` of the sectors that start at `lba`. -/
def Config.byte (disk : Config) (lba k : Nat) : UInt8 :=
  disk.disk (lba + k / kSectorSize) ⟨k % kSectorSize, Nat.mod_lt k (by decide)⟩

/-- `DiskReader::sector_count`. -/
def Config.sectorCount (disk : Config) : Nat :=
  if disk.valid then disk.capacity else 0

/-- The sector loop of `read_sectors`: whether all sectors arrived, and how
many were copied to the buffer. -/
def transfer : Nat → Outcomes → Bool × Nat × Outcomes
  | 0, io => (true, 0, io)
  | count + 1, io =>
      if io 0 then
        let r := transfer count io.tail
        (r.1, r.2.1 + 1, r.2.2)
      else (false, 0, io.tail)

/-- `DiskReader::read_sectors` with the caller's buffer at `pos` of `buf`. -/
def Config.readSectors (disk : Config) (lba count : Nat) (buf : Mem)
    (pos : Nat) (io : Outcomes) : Bool × Mem × Outcomes :=
  if disk.valid = false ∨ lba > disk.capacity ∨
      count > disk.capacity - lba then
    (false, buf, io)
  else
    let r := transfer count io
    (r.1, copy buf pos (r.2.1 * kSectorSize) (disk.byte lba), r.2.2)

/-- One sector read into a local buffer, which is looked at only when the
read succeeds. -/
def Config.readSector (disk : Config) (lba : Nat) (io : Outcomes) :
    Option Mem × Outcomes :=
  match disk.readSectors lba 1 (fun _ => 0) 0 io with
  | (true, sector, io) => (some sector, io)
  | (false, _, io) => (none, io)

end DiskReader

/-- `Fat32Metadata`. -/
structure Fat32Metadata where
  bytesPerSector : Nat
  sectorsPerCluster : Nat
  reservedSectors : Nat
  numFats : Nat
  sectorsPerFat : Nat
  rootCluster : Nat
  totalSectors : Nat
  dataStartSector : Nat
  clusterCount : Nat
  volumeId : Nat
  label : List UInt8
  freeClustersHint : Nat
deriving DecidableEq, Repr

namespace Fat32Metadata

/-- `Fat32::valid_cluster`, with the 32-bit sum of the source. -/
def validCluster (m : Fat32Metadata) (cluster : Nat) : Bool :=
  2 ≤ cluster && cluster < (m.clusterCount + 2) % 2 ^ 32

/-- `Fat32::cluster_lba`. -/
def clusterLba (m : Fat32Metadata) (cluster : Nat) : Nat :=
  m.dataStartSector +
    (cluster + (2 ^ 32 - 2)) % 2 ^ 32 * m.sectorsPerCluster

/-- The size of a cluster in bytes. -/
def clusterBytes (m : Fat32Metadata) : Nat :=
  m.sectorsPerCluster * DiskReader.kSectorSize

end Fat32Metadata

namespace Fat32

def kSector : Nat := DiskReader.kSectorSize

def kAttrVolumeId : UInt8 := 0x08

def kAttrDirectory : UInt8 := 0x10

def kAttrLfn : UInt8 := 0x0F

def kMaxNameLen : Nat := 255

def kEndOfChain : Nat := 0x0FFFFFF8

/-- `le16(p + off)`. -/
def le16 (p : Mem) (off : Nat) : Nat := load p off 2

/-- `le32(p + off)`. -/
def le32 (p : Mem) (off : Nat) : Nat := load p off 4

def upper (c : UInt8) : UInt8 :=
  if 0x61 ≤ c ∧ c ≤ 0x7A then c - 0x61 + 0x41 else c

def equalNocase (a b : List UInt8) : Bool :=
  a.length == b.length && (a.zip b).all fun p => upper p.1 == upper p.2

/-- One round of the rolling checksum. -/
def checksumRound (sum byte : UInt8) : UInt8 :=
  (if sum &&& 1 ≠ 0 then (0x80 : UInt8) else 0) + (sum >>> 1) + byte

def shortNameChecksum (name11 : Mem) : UInt8 :=
  ((List.range 11).map name11).foldl checksumRound 0

/-- The characters of an 8.3 field from byte `i` on, up to the padding. -/
def unpadded (name11 : Mem) (i n : Nat) : List UInt8 :=
  ((List.range' i n).map name11).takeWhile (· ≠ 0x20)

/-- `format_short_name`: 0x05 stands in for a leading 0xE5. -/
def formatShortName (name11 : Mem) : List UInt8 :=
  let base := match unpadded name11 0 8 with
    | [] => []
    | c :: rest => (if c = 0x05 then 0xE5 else c) :: rest
  if name11 8 ≠ 0x20 then base ++ 0x2E :: unpadded name11 8 3 else base

/-- The tests on the boot sector that do not depend on the geometry. -/
def isFat32 (sector : Mem) : Bool :=
  sector 510 == 0x55 && sector 511 == 0xAA && le16 sector 11 == kSector &&
    le16 sector 17 == 0 && le16 sector 22 == 0 && le32 sector 36 != 0 &&
    (List.range' 82 8).map sector ==
      [0x46, 0x41, 0x54, 0x33, 0x32, 0x20, 0x20, 0x20]

/-- The length of the label without its trailing spaces. -/
def labelLen (sector : Mem) : Nat → Nat
  | 0 => 0
  | n + 1 => if sector (71 + n) = 0x20 then labelLen sector n else n + 1

/-- The fields taken from the boot sector as they stand there. -/
def bootFields (sector : Mem) : Fat32Metadata where
  bytesPerSector := kSector
  sectorsPerCluster := (sector 13).toNat
  reservedSectors := le16 sector 14
  numFats := (sector 16).toNat
  sectorsPerFat := le32 sector 36
  rootCluster := le32 sector 44
  totalSectors :=
    if le16 sector 19 ≠ 0 then le16 sector 19 else le32 sector 32
  dataStartSector := 0
  clusterCount := 0
  volumeId := le32 sector 67
  label := (List.range' 71 (labelLen sector 11)).map sector
  freeClustersHint := 0

/-- The geometry behind the boot sector's fields, if they make sense on a disk
of `sectors` sectors. -/
def geometry (m : Fat32Metadata) (sectors : Nat) : Option Fat32Metadata :=
  if m.sectorsPerCluster = 0 ∨
      m.sectorsPerCluster &&& (m.sectorsPerCluster - 1) ≠ 0 ∨
      m.numFats = 0 ∨ m.reservedSectors = 0 then none
  else
    let dataStart := m.reservedSectors + m.numFats * m.sectorsPerFat
    if dataStart ≥ m.totalSectors ∨ m.totalSectors > sectors then none
    else
      let m := { m with
        dataStartSector := dataStart % 2 ^ 32
        clusterCount :=
          (m.totalSectors - dataStart) / m.sectorsPerCluster % 2 ^ 32 }
      if m.validCluster m.rootCluster then some m else none

/-- The free-cluster count of the FSInfo sector, if it has one to offer. -/
def freeClustersHint (disk : DiskReader.Config) (m : Fat32Metadata)
    (fsinfoSector : Nat) (io : Outcomes) : Nat × Outcomes :=
  if fsinfoSector ≠ 0 ∧ fsinfoSector < m.reservedSectors then
    match disk.readSector fsinfoSector io with
    | (none, io) => (0xFFFFFFFF, io)
    | (some sector, io) =>
        if le32 sector 0 = 0x41615252 ∧ le32 sector 484 = 0x61417272 then
          (le32 sector 488, io)
        else (0xFFFFFFFF, io)
  else (0xFFFFFFFF, io)

/-- `Fat32::Fat32`: the metadata of a volume that mounts. -/
def mount (disk : DiskReader.Config) (io : Outcomes) :
    Option Fat32Metadata × Outcomes :=
  if disk.valid = false then (none, io)
  else
    match disk.readSector 0 io with
    | (none, io) => (none, io)
    | (some sector, io) =>
        if isFat32 sector then
          match geometry (bootFields sector) disk.sectorCount with
          | none => (none, io)
          | some m =>
              let r := freeClustersHint disk m (le16 sector 48) io
              (some { m with freeClustersHint := r.1 }, r.2)
        else (none, io)

end Fat32

/-- A mounted volume. -/
structure Fat32 where
  disk : DiskReader.Config
  metadata : Fat32Metadata
  mounted : ∃ io, (Fat32.mount disk io).1 = some metadata

namespace Fat32

/-- `Fat32::Entry`. -/
structure Entry where
  firstCluster : Nat
  size : Nat
  dir : Bool
  size_lt : size < 2 ^ 32
deriving DecidableEq

/-- `Fat32::fat_next`. -/
def fatNext (v : Fat32) (cluster : Nat) (io : Outcomes) :
    Option Nat × Outcomes :=
  let byteOff := cluster * 4 % 2 ^ 32
  match v.disk.readSector
      (v.metadata.reservedSectors + byteOff / kSector) io with
  | (none, io) => (none, io)
  | (some sector, io) => (some (le32 sector (byteOff % kSector) % 2 ^ 28), io)

/-- The long name under assembly in `lookup`. -/
structure Lfn where
  buf : Mem
  len : Nat
  ok : Bool
  checksum : UInt8

/-- `lookup`'s variables on entry; the buffer is cleared before its first
use. -/
def Lfn.start : Lfn :=
  { buf := fun _ => 0, len := 0, ok := false, checksum := 0 }

/-- Where the thirteen characters stand in a long-name entry. -/
def kOffsets : List Nat := [1, 3, 5, 7, 9, 14, 16, 18, 20, 22, 24, 28, 30]

/-- What `lookup` keeps of a UTF-16 unit: padding ends the name, and `?`
stands for everything past ASCII. -/
def lfnChar (ch : Nat) : UInt8 :=
  if ch = 0xFFFF then 0 else if ch < 0x80 then UInt8.ofNat ch else 0x3F

/-- The thirteen characters of a long-name entry. -/
def pieceChars (e : Mem) : List UInt8 :=
  kOffsets.map fun off => lfnChar (le16 e off)

/-- Bits 0 to 5 of the ordinal. -/
def pieceSeq (e : Mem) : Nat := (e 0 &&& 0x3F).toNat

/-- The long-name branch of `lookup`'s entry loop. -/
def Lfn.piece (lfn : Lfn) (e : Mem) : Lfn :=
  let seq := pieceSeq e
  if seq = 0 ∨ seq * 13 > kMaxNameLen + 13 then { lfn with ok := false }
  else
    let put (buf : Mem) : Mem :=
      copy buf ((seq - 1) * 13) 13 fun i => (pieceChars e).getD i 0
    if e 0 &&& 0x40 ≠ 0 then
      { buf := put fun _ => 0, len := seq * 13, ok := true, checksum := e 13 }
    else if lfn.ok = false ∨ e 13 ≠ lfn.checksum then { lfn with ok := false }
    else { lfn with buf := put lfn.buf }

/-- The assembled characters up to the terminator. -/
def Lfn.name (lfn : Lfn) : List UInt8 :=
  ((List.range lfn.len).map lfn.buf).takeWhile (· ≠ 0)

/-- The cluster, size and directory bit of a short entry. -/
def Entry.ofShort (e : Mem) : Entry where
  firstCluster := le16 e 20 * 2 ^ 16 + le16 e 26
  size := le32 e 28
  dir := e 11 &&& kAttrDirectory ≠ 0
  size_lt := load_lt e 28 4

/-- What one directory entry does to the scan. -/
inductive Scan where
  | more (lfn : Lfn)
  | stop
  | found (entry : Entry)

/-- The tail of the entry loop of `lookup`: a short entry or a label. -/
def shortEntry (name : List UInt8) (lfn : Lfn) (e : Mem) : Scan :=
  let haveLfn := lfn.ok && shortNameChecksum e == lfn.checksum
  if e 11 &&& kAttrVolumeId ≠ 0 then .more { lfn with ok := false }
  else if (haveLfn && equalNocase lfn.name name) ||
      equalNocase (formatShortName e) name then
    .found (Entry.ofShort e)
  else .more { lfn with ok := false }

/-- The body of the entry loop of `lookup`. -/
def scanEntry (name : List UInt8) (lfn : Lfn) (e : Mem) : Scan :=
  if e 0 = 0x00 then .stop
  else if e 0 = 0xE5 then .more { lfn with ok := false }
  else if e 11 = kAttrLfn then .more (lfn.piece e)
  else shortEntry name lfn e

def scanEntries (name : List UInt8) : List Mem → Lfn → Scan
  | [], lfn => .more lfn
  | e :: rest, lfn =>
      match scanEntry name lfn e with
      | .more lfn => scanEntries name rest lfn
      | r => r

/-- The sixteen entries of a sector. -/
def entries (sector : Mem) : List Mem :=
  (List.range 16).map fun i k => sector (32 * i + k)

/-- The sector loop of `lookup`, `n` sectors from `lba` on. -/
def scanSectors (v : Fat32) (name : List UInt8) :
    Nat → Nat → Lfn → Outcomes → Scan × Outcomes
  | 0, _, lfn, io => (.more lfn, io)
  | n + 1, lba, lfn, io =>
      match v.disk.readSector lba io with
      | (none, io) => (.stop, io)
      | (some sector, io) =>
          match scanEntries name (entries sector) lfn with
          | .more lfn => scanSectors v name n (lba + 1) lfn io
          | r => (r, io)

/-- The cluster loop of `lookup` with at most `hops` more clusters. -/
def scanChain (v : Fat32) (name : List UInt8) :
    Nat → Nat → Lfn → Outcomes → Option Entry × Outcomes
  | 0, _, _, io => (none, io)
  | hops + 1, cluster, lfn, io =>
      if v.metadata.validCluster cluster then
        match scanSectors v name v.metadata.sectorsPerCluster
            (v.metadata.clusterLba cluster) lfn io with
        | (.stop, io) => (none, io)
        | (.found entry, io) => (some entry, io)
        | (.more lfn, io) =>
            match fatNext v cluster io with
            | (none, io) => (none, io)
            | (some next, io) => scanChain v name hops next lfn io
      else (none, io)

/-- `Fat32::lookup`, with the value of `out` before and after. -/
def lookup (v : Fat32) (dirCluster : Nat) (name : List UInt8) (out : Entry)
    (io : Outcomes) : Bool × Entry × Outcomes :=
  match scanChain v name (v.metadata.clusterCount + 1) dirCluster
      Lfn.start io with
  | (some entry, io) => (true, entry, io)
  | (none, io) => (false, out, io)

end Fat32

/-- A handle to a file or directory, `File` in the source. -/
structure File where
  fs : Option Fat32
  firstCluster : Nat
  size : Nat
  dir : Bool
  cacheIndex : Nat
  cacheCluster : Nat
  size_lt : size < 2 ^ 32

namespace File

/-- The handle of nothing, as the default constructor makes it. -/
def invalid : File :=
  { fs := none, firstCluster := 0, size := 0, dir := false,
    cacheIndex := 0, cacheCluster := 0, size_lt := by decide }

def valid (f : File) : Bool := f.fs.isSome

end File

/-- A string of a caller: its bytes before the terminator. -/
structure CString where
  bytes : List UInt8
  noNul : 0 ∉ bytes

namespace Fat32

def slash : UInt8 := 0x2F

/-- The synthetic entry `find` starts from. -/
def rootEntry (v : Fat32) : Entry :=
  { firstCluster := v.metadata.rootCluster, size := 0, dir := true,
    size_lt := by decide }

/-- The cluster a directory entry stands for: 0 is how `..` spells the root. -/
def dirCluster (v : Fat32) (entry : Entry) : Nat :=
  if entry.firstCluster = 0 then v.metadata.rootCluster
  else entry.firstCluster

/-- The component loop of `find` at `p`, `none` inside when the path does not
resolve and outside when the fuel runs out. -/
def findLoop (v : Fat32) : Nat → List UInt8 → Entry → Outcomes →
    Option (Option Entry × Outcomes)
  | 0, _, _, _ => none
  | fuel + 1, p, cur, io =>
      let p := p.dropWhile (· = slash)
      if p = [] then some (some cur, io)
      else
        let name := p.takeWhile (· ≠ slash)
        if cur.dir = false then some (none, io)
        else if name.length > kMaxNameLen then some (none, io)
        else
          match lookup v (dirCluster v cur) name cur io with
          | (false, _, io) => some (none, io)
          | (true, cur, io) =>
              findLoop v fuel (p.dropWhile (· ≠ slash)) cur io

/-- The handle `find` makes of the entry it arrived at. -/
def fileOf (v : Fat32) (cur : Entry) : File :=
  { fs := some v
    firstCluster :=
      if cur.dir ∧ cur.firstCluster = 0 then v.metadata.rootCluster
      else cur.firstCluster
    size := if cur.dir then 0 else cur.size
    dir := cur.dir
    cacheIndex := 0
    cacheCluster := 0
    size_lt := by
      have h := cur.size_lt
      split <;> omega }

/-- `Fat32::find`; a null pointer is `none`.  Every round of the loop takes at
least one byte, so the length of the path is fuel enough. -/
def find (v : Fat32) (path : Option CString) (io : Outcomes) :
    Option (File × Outcomes) :=
  match path with
  | none => some (File.invalid, io)
  | some path =>
      match findLoop v (path.bytes.length + 1) path.bytes (rootEntry v) io with
      | none => none
      | some (none, io) => some (File.invalid, io)
      | some (some cur, io) => some (fileOf v cur, io)

end Fat32

namespace File

/-- The walk of `read` along the chain, `hops` links from `cluster` on. -/
def walk (v : Fat32) : Nat → Nat → Outcomes → Option Nat × Outcomes
  | 0, cluster, io => (some cluster, io)
  | hops + 1, cluster, io =>
      if v.metadata.validCluster cluster then
        match v.fatNext cluster io with
        | (none, io) => (none, io)
        | (some next, io) => walk v hops next io
      else (none, io)

/-- The cluster at chain position `index`, from the cursor cache when that is
not past it. -/
def locate (f : File) (v : Fat32) (index : Nat) (io : Outcomes) :
    Option Nat × Outcomes :=
  let r :=
    if v.metadata.validCluster f.cacheCluster ∧ f.cacheIndex ≤ index then
      walk v (index - f.cacheIndex) f.cacheCluster io
    else walk v index f.firstCluster io
  match r with
  | (none, io) => (none, io)
  | (some cluster, io) =>
      if v.metadata.validCluster cluster then (some cluster, io)
      else (none, io)

/-- Cache the cluster at chain position `index`. -/
def moveCursor (f : File) (index cluster : Nat) : File :=
  { f with cacheIndex := index % 2 ^ 32, cacheCluster := cluster }

/-- The variables of `read`'s loop. -/
structure Reading where
  file : File
  out : Mem
  done : Nat
  io : Outcomes

/-- How many sectors one round may read into the caller's buffer. -/
def wholeSectors (m : Fat32Metadata) (remaining sectorInCluster : Nat) : Nat :=
  min (remaining / Fat32.kSector % 2 ^ 32)
    (m.sectorsPerCluster - sectorInCluster)

/-- The transfer of one round of `read`'s loop out of `cluster`; `false` for
`return -1`. -/
def readChunk (v : Fat32) (cluster pos remaining : Nat) (r : Reading) :
    Bool × Reading :=
  let within := pos % v.metadata.clusterBytes
  let sectorInCluster := within / Fat32.kSector
  let byteInSector := within % Fat32.kSector
  let lba := v.metadata.clusterLba cluster + sectorInCluster
  if byteInSector = 0 ∧ remaining ≥ Fat32.kSector then
    let n := wholeSectors v.metadata remaining sectorInCluster
    match v.disk.readSectors lba n r.out r.done r.io with
    | (false, out, io) => (false, { r with out := out, io := io })
    | (true, out, io) =>
        (true, { r with
          out := out, io := io, done := r.done + n * Fat32.kSector })
  else
    let chunk := min (Fat32.kSector - byteInSector) remaining
    match v.disk.readSector lba r.io with
    | (none, io) => (false, { r with io := io })
    | (some sector, io) =>
        (true, { r with
          out := copy r.out r.done chunk fun k => sector (byteInSector + k)
          io := io
          done := r.done + chunk })

/-- One round of `read`'s loop. -/
def readStep (v : Fat32) (offset len : Nat) (r : Reading) : Bool × Reading :=
  let pos := offset + r.done
  let index := pos / v.metadata.clusterBytes
  match r.file.locate v index r.io with
  | (none, io) => (false, { r with io := io })
  | (some cluster, io) =>
      readChunk v cluster pos (len - r.done)
        { r with file := r.file.moveCursor index cluster, io := io }

/-- `read`'s loop, with the value returned and the variables it leaves. -/
def readLoop (v : Fat32) (offset len : Nat) :
    Nat → Reading → Option (Int × Reading)
  | 0, _ => none
  | fuel + 1, r =>
      if r.done < len then
        match readStep v offset len r with
        | (false, r) => some (-1, r)
        | (true, r) => readLoop v offset len fuel r
      else some (r.done, r)

/-- `File::read`: the value returned, and the buffer, the handle and the
outcomes behind the call.  Every round transfers at least one byte, so the
clamped length is fuel enough. -/
def read (f : File) (offset : Nat) (out : Mem) (len : Nat) (io : Outcomes) :
    Option (Int × Reading) :=
  let r : Reading := { file := f, out := out, done := 0, io := io }
  match f.fs with
  | none => some (-1, r)
  | some v =>
      if f.dir then some (-1, r)
      else if offset ≥ f.size ∨ len = 0 then some (0, r)
      else
        let len := min len (f.size - offset)
        readLoop v offset len (len + 1) r

end File

end IntroOs
