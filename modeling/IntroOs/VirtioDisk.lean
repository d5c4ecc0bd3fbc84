/-
The polled virtio-blk driver and the device it talks to.  The two parties
share one request header, one data buffer, one status byte and the two ring
indices; the driver runs `read_sectors` calls one after the other under its
lock, and the device serves available entries at its own pace.
-/
import Mathlib.Algebra.Group.Nat.Defs
import Mathlib.Tactic.Common

namespace IntroOs

namespace DiskReader

def kSectorSize : Nat := 512

def kQueueSize : Nat := 8

def kPollLimit : Nat := 200000000

def kBlkSOk : Nat := 0

/-- The value `read_one` stores in the status byte before a request. -/
def kStatusPending : Nat := 0xff

abbrev Sector := Fin kSectorSize → UInt8

/-- What the probe found, and the contents of the disk behind it. -/
structure Config where
  valid : Bool
  capacity : Nat
  capacity_lt : capacity < 2 ^ 64
  disk : Nat → Sector

/-- How far the device is with one request it has taken off the available
ring.  `header` and `data` remember the sector number the device read. -/
inductive Phase where
  | taken
  | header (lba : Nat)
  | data (lba : Nat)
  | status
deriving DecidableEq, Repr

/-- Where the driver is inside `read_sectors`, for sector `i` of the call.
`poll` counts the spins of the completion loop. -/
inductive Pc where
  | idle
  | setHeader (i : Nat)
  | setStatus (i : Nat)
  | setRing (i : Nat)
  | publish (i : Nat)
  | notify (i : Nat)
  | poll (i spins : Nat)
  | check (i : Nat)
  | copy (i : Nat)
  | ret (ok : Bool)
deriving DecidableEq, Repr

/-- The shared memory of both parties, the driver's own variables, and the
device's own variables.  Indices are free-running 16-bit counters. -/
structure State where
  header : Nat
  status : Nat
  data : Sector
  ring : Nat → Nat
  availIdx : Nat
  usedIdx : Nat
  lastUsed : Nat
  pc : Pc
  lba : Nat
  count : Nat
  buf : Nat → Sector
  devAvail : Nat
  inflight : List Phase

/-- A 16-bit increment. -/
def inc16 (n : Nat) : Nat := (n + 1) % 2 ^ 16

/-- Zero-initialised `g_dma` and driver variables, and a device that has been
reset. -/
def initial (data : Sector) (buf : Nat → Sector) : State :=
  { header := 0, status := 0, data := data, ring := fun _ => 0,
    availIdx := 0, usedIdx := 0, lastUsed := 0, pc := .idle, lba := 0,
    count := 0, buf := buf, devAvail := 0, inflight := [] }

/-- The head of the sector loop: `i < count && ok`. -/
def State.loop (s : State) (i : Nat) : State :=
  { s with pc := if i < s.count then .setHeader i else .ret true }

/-- Entry of `DiskReader::read_sectors`, up to the sector loop. -/
def readSectors (cfg : Config) (s : State) (lba count : Nat)
    (buf : Nat → Sector) : State :=
  let s := { s with lba := lba, count := count, buf := buf }
  if cfg.valid = false ∨ lba > cfg.capacity ∨ count > cfg.capacity - lba then
    { s with pc := .ret false }
  else s.loop 0

/-- One step of the driver: the body of `read_one` and of the sector loop,
one access to the shared memory at a time. -/
def driver (s : State) : Option State :=
  match s.pc with
  | .idle => none
  | .setHeader i => some { s with header := s.lba + i, pc := .setStatus i }
  | .setStatus i => some { s with status := kStatusPending, pc := .setRing i }
  | .setRing i =>
      some { s with
        ring := Function.update s.ring (s.availIdx % kQueueSize) 0
        pc := .publish i }
  | .publish i => some { s with availIdx := inc16 s.availIdx, pc := .notify i }
  | .notify i => some { s with pc := .poll i 0 }
  | .poll i spins =>
      if s.usedIdx = s.lastUsed then
        if spins + 1 > kPollLimit then some { s with pc := .ret false }
        else some { s with pc := .poll i (spins + 1) }
      else some { s with lastUsed := inc16 s.lastUsed, pc := .check i }
  | .check i =>
      if s.status = kBlkSOk then some { s with pc := .copy i }
      else some { s with pc := .ret false }
  | .copy i =>
      some ({ s with buf := Function.update s.buf i s.data }.loop (i + 1))
  | .ret _ => some { s with pc := .idle }

/-- The device's moves.  It takes available entries in order and serves each
request through its phases; requests it has taken may progress in any order,
and one may fail with an error status, before or behind the data. -/
inductive Move where
  | take
  | readHeader (k : Nat)
  | writeData (k : Nat)
  | writeStatus (k : Nat)
  | writeError (k : Nat) (code : Nat)
  | use (k : Nat)
deriving DecidableEq, Repr

def device (cfg : Config) (s : State) : Move → Option State
  | .take =>
      if s.devAvail = s.availIdx then none
      else some { s with
        devAvail := inc16 s.devAvail, inflight := s.inflight ++ [.taken] }
  | .readHeader k =>
      if s.inflight[k]? = some .taken then
        some { s with inflight := s.inflight.set k (.header s.header) }
      else none
  | .writeData k =>
      match s.inflight[k]? with
      | some (.header lba) =>
          some { s with data := cfg.disk lba
                        inflight := s.inflight.set k (.data lba) }
      | _ => none
  | .writeStatus k =>
      match s.inflight[k]? with
      | some (.data _) =>
          some { s with status := kBlkSOk
                        inflight := s.inflight.set k .status }
      | _ => none
  | .writeError k code =>
      match s.inflight[k]? with
      | some (.header _) | some (.data _) =>
          if code = kBlkSOk then none
          else some { s with status := code
                             inflight := s.inflight.set k .status }
      | _ => none
  | .use k =>
      if s.inflight[k]? = some .status then
        some { s with usedIdx := inc16 s.usedIdx
                      inflight := s.inflight.eraseIdx k }
      else none

/-- One step of a run: a caller starts a call while the lock is free, the
driver moves on, or the device does. -/
inductive Action where
  | call (lba count : Nat) (buf : Nat → Sector)
  | driver
  | device (move : Move)

def step (cfg : Config) (s : State) : Action → Option State
  | .call lba count buf =>
      if s.pc = .idle ∧ lba < 2 ^ 64 ∧ count < 2 ^ 32 then
        some (readSectors cfg s lba count buf)
      else none
  | .driver => DiskReader.driver s
  | .device move => DiskReader.device cfg s move

/-- The states of all runs over a disk, whose every step meets `ok`. -/
inductive Run (cfg : Config) (ok : State → Prop) : State → Prop
  | init (data : Sector) (buf : Nat → Sector) : Run cfg ok (initial data buf)
  | step {s t : State} {action : Action} (before : Run cfg ok s) (meets : ok s)
      (step : step cfg s action = some t) : Run cfg ok t

/-- A call that returns true has filled the buffer with the sectors it was
asked for. -/
def ReadsRight (cfg : Config) (s : State) : Prop :=
  s.pc = .ret true → ∀ i < s.count, s.buf i = cfg.disk (s.lba + i)

/-- The device has finished with every entry made available so far. -/
def DeviceIdle (s : State) : Prop :=
  s.inflight = [] ∧ s.devAvail = s.availIdx

/-- A new request is only started when no earlier one is still in flight. -/
def Quiet (s : State) : Prop := ∀ i, s.pc = .setHeader i → DeviceIdle s

end DiskReader

end IntroOs
