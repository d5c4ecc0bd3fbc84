/-
`read_one` byte by byte.  The driver builds each request in `g_dma`: a header,
three descriptors and an entry of the available ring; the device finds it there
through the addresses it was told at the probe.  What both parties see is one
record, and every store is an update of a member of it.
-/
import IntroOs.Memmove
import IntroOs.Mmu
import IntroOs.VirtioIndices
import IntroOs.VirtioProbe

namespace IntroOs

namespace DiskReader

open ByteMem

def kDescFNext : Nat := 1

def kDescFWrite : Nat := 2

def kBlkTIn : Nat := 0

/-- `sizeof(Dma)`, which is aligned to a page. -/
def kDmaSize : Nat := alignTo (kDataOffset + kSectorSize) 4096

@[ext]
structure Desc where
  addr : Nat
  len : Nat
  flags : Nat
  next : Nat
deriving DecidableEq, Repr

/-- The descriptor `k` of a table. -/
def Desc.read (m : Mem) (table k : Nat) : Desc where
  addr := load m (table + kDescSize * k) 8
  len := load m (table + kDescSize * k + 8) 4
  flags := load m (table + kDescSize * k + 12) 2
  next := load m (table + kDescSize * k + 14) 2

def Desc.write (m : Mem) (table k : Nat) (d : Desc) : Mem :=
  store (store (store (store m
    (table + kDescSize * k) 8 d.addr)
    (table + kDescSize * k + 8) 4 d.len)
    (table + kDescSize * k + 12) 2 d.flags)
    (table + kDescSize * k + 14) 2 d.next

/-- The members of `g_dma` that are ever read. -/
@[ext]
structure Record where
  desc : Fin kQueueSize → Desc
  availIdx : Nat
  ring : Fin kQueueSize → Nat
  usedIdx : Nat
  type : Nat
  sector : Nat
  status : Nat
  data : Sector

/-- `g_dma` at the physical address `dma`. -/
def Record.read (dma : Nat) (m : Mem) : Record where
  desc k := Desc.read m (dma + kDescOffset) k
  availIdx := load m (dma + kAvailOffset + 2) 2
  ring k := load m (dma + kAvailOffset + 4 + 2 * k) 2
  usedIdx := load m (dma + kUsedOffset + 2) 2
  type := load m (dma + kHeaderOffset) 4
  sector := load m (dma + kHeaderOffset + 8) 8
  status := load m (dma + kStatusOffset) 1
  data j := m (dma + kDataOffset + j)

section Members

theorem kDescOffset_eq : kDescOffset = 0 := rfl

theorem kAvailOffset_eq : kAvailOffset = 128 := rfl

theorem kUsedOffset_eq : kUsedOffset = 148 := rfl

theorem kHeaderOffset_eq : kHeaderOffset = 224 := rfl

theorem kStatusOffset_eq : kStatusOffset = 240 := rfl

theorem kDataOffset_eq : kDataOffset = 256 := rfl

theorem kDmaSize_eq : kDmaSize = 4096 := rfl

variable {m m' : Mem} {dma lo hi : Nat}

theorem Desc.read_congr {table k : Nat}
    (h : EqOn m' m (table + kDescSize * k) (table + kDescSize * k + 16)) :
    Desc.read m' table k = Desc.read m table k := by
  refine Desc.ext ?_ ?_ ?_ ?_
  all_goals exact load_congr (h.mono (by omega) (by omega))

theorem Desc.read_of_eqOutside {table k : Nat} (h : EqOutside m' m lo hi)
    (hsep : table + kDescSize * k + 16 ≤ lo ∨ hi ≤ table + kDescSize * k) :
    Desc.read m' table k = Desc.read m table k := by
  rcases hsep with hbelow | habove
  · exact Desc.read_congr (h.eqOn_below hbelow)
  · exact Desc.read_congr (h.eqOn_above habove)

theorem Desc.read_write {table k : Nat} {d : Desc} (haddr : d.addr < 2 ^ 64)
    (hlen : d.len < 2 ^ 32) (hflags : d.flags < 2 ^ 16)
    (hnext : d.next < 2 ^ 16) :
    Desc.read (Desc.write m table k d) table k = d := by
  unfold Desc.read Desc.write
  refine Desc.ext ?_ ?_ ?_ ?_
  · dsimp only
    rw [load_store_disjoint _ _ (by omega), load_store_disjoint _ _ (by omega),
      load_store_disjoint _ _ (by omega), load_store_same _ _ _ _ haddr]
  · dsimp only
    rw [load_store_disjoint _ _ (by omega), load_store_disjoint _ _ (by omega),
      load_store_same _ _ _ _ hlen]
  · dsimp only
    rw [load_store_disjoint _ _ (by omega), load_store_same _ _ _ _ hflags]
  · exact load_store_same _ _ _ _ hnext

theorem Desc.write_eqOutside (m : Mem) (table k : Nat) (d : Desc) :
    EqOutside (Desc.write m table k d) m (table + kDescSize * k)
      (table + kDescSize * k + 16) := by
  have hstore (m : Mem) {a n : Nat} (v : Nat)
      (ha : table + kDescSize * k ≤ a) (hn : a + n ≤ table + kDescSize * k + 16) :
      EqOutside (store m a n v) m (table + kDescSize * k)
        (table + kDescSize * k + 16) :=
    EqOutside.mono (store_eqOutside m a n v) ha hn
  exact (hstore _ _ (by omega) (by omega)).trans
    ((hstore _ _ (by omega) (by omega)).trans
      ((hstore _ _ (by omega) (by omega)).trans
        (hstore _ _ (by omega) (by omega))))

/-- The members that a write to `[lo, hi)` leaves alone. -/
structure Record.Framed (lo hi : Nat) (r' r : Record) : Prop where
  desc : 128 ≤ lo → r'.desc = r.desc
  availIdx : 132 ≤ lo ∨ hi ≤ 130 → r'.availIdx = r.availIdx
  ring : 148 ≤ lo ∨ hi ≤ 132 → r'.ring = r.ring
  usedIdx : 152 ≤ lo ∨ hi ≤ 150 → r'.usedIdx = r.usedIdx
  type : 228 ≤ lo ∨ hi ≤ 224 → r'.type = r.type
  sector : 240 ≤ lo ∨ hi ≤ 232 → r'.sector = r.sector
  status : 241 ≤ lo ∨ hi ≤ 240 → r'.status = r.status
  data : 768 ≤ lo ∨ hi ≤ 256 → r'.data = r.data

theorem Record.framed (lo hi : Nat)
    (h : EqOutside m' m (dma + lo) (dma + hi)) :
    Record.Framed lo hi (.read dma m') (.read dma m) where
  desc hsep := funext fun k => Desc.read_of_eqOutside h (by
    have hk : (k : Nat) < 8 := k.isLt
    rw [kDescOffset_eq, kDescSize]
    omega)
  availIdx hsep := load_eq_of_eqOutside h (by rw [kAvailOffset_eq]; omega)
  ring hsep := funext fun k => load_eq_of_eqOutside h (by
    have hk : (k : Nat) < 8 := k.isLt
    rw [kAvailOffset_eq]
    omega)
  usedIdx hsep := load_eq_of_eqOutside h (by rw [kUsedOffset_eq]; omega)
  type hsep := load_eq_of_eqOutside h (by rw [kHeaderOffset_eq]; omega)
  sector hsep := load_eq_of_eqOutside h (by rw [kHeaderOffset_eq]; omega)
  status hsep := load_eq_of_eqOutside h (by rw [kStatusOffset_eq]; omega)
  data hsep := funext fun j => h _ (by
    have hj : (j : Nat) < 512 := j.isLt
    rw [kDataOffset_eq]
    omega)

/-- A change outside `g_dma`, or in the ring of used entries, which nobody
reads. -/
theorem Record.read_of_eqOn (h : EqOn m' m dma (dma + 152))
    (h' : EqOn m' m (dma + 224) (dma + 768)) :
    Record.read dma m' = Record.read dma m := by
  have hheader := kHeaderOffset_eq
  have hstatus := kStatusOffset_eq
  refine Record.ext (funext fun k => ?_) (load_congr ?_)
    (funext fun k => load_congr ?_) (load_congr ?_) (load_congr ?_)
    (load_congr ?_) (load_congr ?_) (funext fun j => ?_)
  · have hk : (k : Nat) < 8 := k.isLt
    apply Desc.read_congr
    rw [kDescOffset_eq, kDescSize]
    exact h.mono (by omega) (by omega)
  · rw [kAvailOffset_eq]
    exact h.mono (by omega) (by omega)
  · have hk : (k : Nat) < 8 := k.isLt
    rw [kAvailOffset_eq]
    exact h.mono (by omega) (by omega)
  · rw [kUsedOffset_eq]
    exact h.mono (by omega) (by omega)
  · exact h'.mono (by omega) (by omega)
  · exact h'.mono (by omega) (by omega)
  · exact h'.mono (by omega) (by omega)
  · have hj : (j : Nat) < 512 := j.isLt
    rw [Record.read, Record.read, kDataOffset_eq]
    exact h' _ (by omega) (by omega)

variable (m) {r : Record} (hr : Record.read dma m = r)

include hr

theorem Record.read_setType :
    Record.read dma (store (store m (dma + kHeaderOffset) 4 kBlkTIn)
      (dma + kHeaderOffset + 4) 4 0) =
      { r with type := kBlkTIn } := by
  subst hr
  have hframe : Record.Framed 224 232 (.read dma (store (store m
      (dma + kHeaderOffset) 4 kBlkTIn) (dma + kHeaderOffset + 4) 4 0))
      (.read dma m) :=
    Record.framed 224 232 (EqOutside.trans
      (EqOutside.mono (store_eqOutside _ _ _ _) (Nat.le_add_right _ _)
        (Nat.le_refl _))
      (EqOutside.mono (store_eqOutside _ _ _ _) (Nat.le_refl _)
        (by rw [kHeaderOffset_eq]; omega)))
  refine Record.ext (hframe.desc (by decide)) (hframe.availIdx (by decide))
    (hframe.ring (by decide)) (hframe.usedIdx (by decide)) ?_
    (hframe.sector (by decide)) (hframe.status (by decide))
    (hframe.data (by decide))
  exact (load_store_disjoint _ _ (by omega)).trans
    (load_store_same _ _ _ _ (by decide))

theorem Record.read_setSector {v : Nat} (h : v < 2 ^ 64) :
    Record.read dma (store m (dma + kHeaderOffset + 8) 8 v) =
      { r with sector := v } := by
  subst hr
  have hframe : Record.Framed 232 240 (.read dma (store m
      (dma + kHeaderOffset + 8) 8 v)) (.read dma m) :=
    Record.framed 232 240 (store_eqOutside _ _ _ _)
  exact Record.ext (hframe.desc (by decide)) (hframe.availIdx (by decide))
    (hframe.ring (by decide)) (hframe.usedIdx (by decide))
    (hframe.type (by decide)) (load_store_same _ _ _ _ h)
    (hframe.status (by decide)) (hframe.data (by decide))

theorem Record.read_setStatus {v : Nat} (h : v < 256) :
    Record.read dma (store m (dma + kStatusOffset) 1 v) =
      { r with status := v } := by
  subst hr
  have hframe : Record.Framed 240 241 (.read dma (store m
      (dma + kStatusOffset) 1 v)) (.read dma m) :=
    Record.framed 240 241 (store_eqOutside _ _ _ _)
  exact Record.ext (hframe.desc (by decide)) (hframe.availIdx (by decide))
    (hframe.ring (by decide)) (hframe.usedIdx (by decide))
    (hframe.type (by decide)) (hframe.sector (by decide))
    (load_store_same _ _ _ _ h) (hframe.data (by decide))

theorem Record.read_setDesc (k : Fin kQueueSize) {d : Desc}
    (haddr : d.addr < 2 ^ 64) (hlen : d.len < 2 ^ 32) (hflags : d.flags < 2 ^ 16)
    (hnext : d.next < 2 ^ 16) :
    Record.read dma (Desc.write m (dma + kDescOffset) k d) =
      { r with desc := Function.update r.desc k d } := by
  subst hr
  have hk : (k : Nat) < 8 := k.isLt
  have hwrite := Desc.write_eqOutside m (dma + kDescOffset) k d
  have hframe : Record.Framed (16 * k) (16 * k + 16) (.read dma (Desc.write m
      (dma + kDescOffset) k d)) (.read dma m) := Record.framed _ _ hwrite
  refine Record.ext (funext fun j => ?_) (hframe.availIdx (by omega))
    (hframe.ring (by omega)) (hframe.usedIdx (by omega))
    (hframe.type (by omega)) (hframe.sector (by omega))
    (hframe.status (by omega)) (hframe.data (by omega))
  dsimp only
  by_cases hj : j = k
  · rw [hj, Function.update_self]
    exact Desc.read_write haddr hlen hflags hnext
  · have hne : (j : Nat) ≠ k := fun heq => hj (Fin.ext heq)
    rw [Function.update_of_ne hj]
    exact Desc.read_of_eqOutside hwrite (by rw [kDescSize]; omega)

theorem Record.read_setRing (k : Fin kQueueSize) {v : Nat} (h : v < 2 ^ 16) :
    Record.read dma (store m (dma + kAvailOffset + 4 + 2 * k) 2 v) =
      { r with ring := Function.update r.ring k v } := by
  subst hr
  have hk : (k : Nat) < 8 := k.isLt
  have hstore := store_eqOutside m (dma + kAvailOffset + 4 + 2 * k) 2 v
  have hframe : Record.Framed 132 148 (.read dma (store m
      (dma + kAvailOffset + 4 + 2 * k) 2 v)) (.read dma m) := by
    refine Record.framed _ _ (hstore.mono ?_ ?_)
    · rw [kAvailOffset_eq]
      omega
    · rw [kAvailOffset_eq]
      omega
  refine Record.ext (hframe.desc (by decide)) (hframe.availIdx (by decide))
    (funext fun j => ?_) (hframe.usedIdx (by decide)) (hframe.type (by decide))
    (hframe.sector (by decide)) (hframe.status (by decide))
    (hframe.data (by decide))
  dsimp only
  by_cases hj : j = k
  · rw [hj, Function.update_self]
    exact load_store_same _ _ _ _ h
  · have hne : (j : Nat) ≠ k := fun heq => hj (Fin.ext heq)
    rw [Function.update_of_ne hj]
    exact load_eq_of_eqOutside hstore (by omega)

theorem Record.read_setAvail {v : Nat} (h : v < 2 ^ 16) :
    Record.read dma (store m (dma + kAvailOffset + 2) 2 v) =
      { r with availIdx := v } := by
  subst hr
  have hframe : Record.Framed 130 132 (.read dma (store m
      (dma + kAvailOffset + 2) 2 v)) (.read dma m) :=
    Record.framed 130 132 (store_eqOutside _ _ _ _)
  exact Record.ext (hframe.desc (by decide)) (load_store_same _ _ _ _ h)
    (hframe.ring (by decide)) (hframe.usedIdx (by decide))
    (hframe.type (by decide)) (hframe.sector (by decide))
    (hframe.status (by decide)) (hframe.data (by decide))

theorem Record.read_setUsed {v : Nat} (h : v < 2 ^ 16) :
    Record.read dma (store m (dma + kUsedOffset + 2) 2 v) =
      { r with usedIdx := v } := by
  subst hr
  have hframe : Record.Framed 150 152 (.read dma (store m
      (dma + kUsedOffset + 2) 2 v)) (.read dma m) :=
    Record.framed 150 152 (store_eqOutside _ _ _ _)
  exact Record.ext (hframe.desc (by decide)) (hframe.availIdx (by decide))
    (hframe.ring (by decide)) (load_store_same _ _ _ _ h)
    (hframe.type (by decide)) (hframe.sector (by decide))
    (hframe.status (by decide)) (hframe.data (by decide))

theorem Record.read_setData (src : Mem) :
    Record.read dma (copy m (dma + kDataOffset) kSectorSize src) =
      { r with data := fun j => src j } := by
  subst hr
  have hframe : Record.Framed 256 768 (.read dma (copy m
      (dma + kDataOffset) kSectorSize src)) (.read dma m) :=
    Record.framed 256 768 (copy_eqOutside _ _ _ _)
  exact Record.ext (hframe.desc (by decide)) (hframe.availIdx (by decide))
    (hframe.ring (by decide)) (hframe.usedIdx (by decide))
    (hframe.type (by decide)) (hframe.sector (by decide))
    (hframe.status (by decide)) (funext fun j => copy_apply _ _ _ j.isLt)

end Members

/-- `g_dma` in the image of the kernel, and the table of `mmu.cpp`. -/
structure Site where
  image : Mmu.Image
  table : Nat
  va : Nat
  inside : image.Contains va kDmaSize

namespace Site

variable (site : Site)

/-- The variables of `mmu.cpp` behind `mmu::init`. -/
def globals : Mmu.Globals := (Mmu.init site.image site.table fun _ => 0).1

/-- The physical address of `g_dma`. -/
def dma : Nat := site.image.phys site.va

/-- `mmu::virt_to_phys` of a member of `g_dma`. -/
def member (offset : Nat) : Nat :=
  Mmu.virtToPhys site.globals (site.va + offset)

/-- The descriptors that `read_one` writes. -/
def request : Nat → Desc
  | 0 => ⟨site.member kHeaderOffset, kReqHeaderSize, kDescFNext, 1⟩
  | 1 => ⟨site.member kDataOffset, kSectorSize, kDescFNext ||| kDescFWrite, 2⟩
  | _ => ⟨site.member kStatusOffset, 1, kDescFWrite, 0⟩

theorem dma_fits : site.dma + kDmaSize ≤ 2 ^ 48 := by
  have hinside := site.inside
  have hfits := site.image.physical_fits
  unfold Mmu.Image.Contains at hinside
  unfold dma Mmu.Image.phys
  omega

theorem member_eq {offset : Nat} (h : offset < kDmaSize) :
    site.member offset = site.dma + offset := by
  have hinside := site.inside
  unfold Mmu.Image.Contains at hinside
  rw [member, globals, Mmu.virtToPhys_eq ⟨by omega, by omega⟩]
  unfold dma Mmu.Image.phys
  omega

end Site

namespace Dma

/-- A request that the device has taken, with the head of its chain. -/
inductive Phase where
  | taken (head : Nat)
  | header (head lba : Nat)
  | data (head lba : Nat)
  | status (head : Nat)
deriving DecidableEq, Repr

/-- The buffers of a request to a block device. -/
structure Chain where
  header : Nat
  data : Nat
  status : Nat
deriving DecidableEq, Repr

/-- The device follows a chain through the table, and takes it if it is of the
form header, sector, status. -/
def chain (m : Mem) (q : Setup) (head : Nat) : Option Chain :=
  let h := Desc.read m q.desc.value head
  let d := Desc.read m q.desc.value h.next
  let s := Desc.read m q.desc.value d.next
  if head < q.queueNum ∧ h.len = kReqHeaderSize ∧ h.flags = kDescFNext ∧
      h.next < q.queueNum ∧ d.len = kSectorSize ∧
      d.flags = kDescFNext ||| kDescFWrite ∧ d.next < q.queueNum ∧
      s.len = 1 ∧ s.flags = kDescFWrite then
    some ⟨h.addr, d.addr, s.addr⟩
  else none

/-- The arguments of `read_sectors`; `buf` is the physical address of the
caller's buffer. -/
structure Request where
  lba : Nat
  count : Nat
  buf : Nat
deriving DecidableEq, Repr

/-- The bytes of the buffer. -/
def Request.Covers (r : Request) (x : Nat) : Prop :=
  r.buf ≤ x ∧ x < r.buf + kSectorSize * r.count

instance (r : Request) (x : Nat) : Decidable (r.Covers x) :=
  inferInstanceAs (Decidable (_ ∧ _))

/-- Memory, the driver's `g_last_used`, the variables of the device, and as
ghosts the calls that have not returned and whether a poll has given up. -/
structure Shared (Core : Type) where
  mem : Mem
  lastUsed : Nat
  devAvail : Nat
  devUsed : Nat
  inflight : List Phase
  pending : List (Core × Request)
  timedOut : Bool

/-- Where `read_sectors` is, for sector `i`; `publish` has the value of
`avail_idx`, and `copy` the index of the loop of `memcpy`. -/
inductive Pc where
  | setType (i : Nat)
  | setSector (i : Nat)
  | setStatus (i : Nat)
  | setDesc (i k : Nat)
  | setRing (i : Nat)
  | publish (i idx : Nat)
  | notify (i : Nat)
  | poll (i spins : Nat)
  | check (i : Nat)
  | copy (i k : Nat)
  | ret (ok : Bool)
deriving DecidableEq, Repr

/-- A call behind the lock, with the memory as it was when it got there as a
ghost. -/
structure Place where
  request : Request
  pc : Pc
  entry : Mem

/-- The head of the sector loop. -/
def Request.loop (r : Request) (i : Nat) : Pc :=
  if i < r.count then .setType i else .ret true

section Object

variable {Core : Type} [DecidableEq Core] (site : Site) (cfg : Config)

/-- The call and its range check, in front of the lock.  The buffer lies in
memory, outside of `g_dma`. -/
def start (c : Core) (r : Request) (s : Shared Core) :
    Option (Option Bool × Shared Core) :=
  if r.lba < 2 ^ 64 ∧ r.count < 2 ^ 32 ∧
      r.buf + kSectorSize * r.count ≤ 2 ^ 64 ∧
      (r.buf + kSectorSize * r.count ≤ site.dma ∨
        site.dma + kDmaSize ≤ r.buf) then
    if cfg.valid = false ∨ r.lba > cfg.capacity ∨
        r.count > cfg.capacity - r.lba then
      some (some false, s)
    else some (none, { s with pending := (c, r) :: s.pending })
  else none

/-- One access of `read_one`, or of the loop around it. -/
def work (r : Request) (s : Shared Core) : Pc → Pc × Shared Core
  | .setType i =>
      (.setSector i, { s with
        mem := store (store s.mem (site.dma + kHeaderOffset) 4 kBlkTIn)
          (site.dma + kHeaderOffset + 4) 4 0 })
  | .setSector i =>
      (.setStatus i, { s with
        mem := store s.mem (site.dma + kHeaderOffset + 8) 8
          ((r.lba + i) % 2 ^ 64) })
  | .setStatus i =>
      (.setDesc i 0, { s with
        mem := store s.mem (site.dma + kStatusOffset) 1 kStatusPending })
  | .setDesc i k =>
      (if k < 2 then .setDesc i (k + 1) else .setRing i, { s with
        mem := Desc.write s.mem (site.dma + kDescOffset) k (site.request k) })
  | .setRing i =>
      let idx := load s.mem (site.dma + kAvailOffset + 2) 2
      (.publish i idx, { s with
        mem := store s.mem
          (site.dma + kAvailOffset + 4 + 2 * (idx % kQueueSize)) 2 0 })
  | .publish i idx =>
      (.notify i, { s with
        mem := store s.mem (site.dma + kAvailOffset + 2) 2 (inc16 idx) })
  | .notify i => (.poll i 0, s)
  | .poll i spins =>
      if load s.mem (site.dma + kUsedOffset + 2) 2 = s.lastUsed then
        if spins + 1 > kPollLimit then (.ret false, { s with timedOut := true })
        else (.poll i (spins + 1), s)
      else (.check i, { s with lastUsed := inc16 s.lastUsed })
  | .check i =>
      (if load s.mem (site.dma + kStatusOffset) 1 = kBlkSOk then .copy i 0
        else .ret false, s)
  | .copy i k =>
      (if k + 1 < kSectorSize then .copy i (k + 1) else r.loop (i + 1), { s with
        mem := Memmove.moveByte (r.buf + i * kSectorSize)
          (site.dma + kDataOffset) k s.mem })
  | .ret ok => (.ret ok, s)

def step (c : Core) (place : Place) (s : Shared Core) :
    (Place ⊕ Bool) × Shared Core :=
  match place.pc with
  | .ret ok => (.inr ok, { s with pending := s.pending.filter (·.1 ≠ c) })
  | pc =>
      let next := work site place.request s pc
      (.inl { place with pc := next.1 }, next.2)

/-- The device of `VirtioDisk`, on memory: it finds its requests through the
queue it was told, reads the header and writes the sector, the status and the
used ring. -/
def device (q : Setup) (s : Shared Core) :
    DiskReader.Move → Option (Shared Core)
  | .take =>
      if s.devAvail = load s.mem (q.driver.value + 2) 2 then none
      else some { s with
        devAvail := inc16 s.devAvail
        inflight := s.inflight ++ [.taken (load s.mem
          (q.driver.value + 4 + 2 * (s.devAvail % q.queueNum)) 2)] }
  | .readHeader k =>
      match s.inflight[k]? with
      | some (.taken head) =>
          (chain s.mem q head).bind fun ch =>
            if load s.mem ch.header 4 = kBlkTIn then
              some { s with
                inflight := s.inflight.set k
                  (.header head (load s.mem (ch.header + 8) 8)) }
            else none
      | _ => none
  | .writeData k =>
      match s.inflight[k]? with
      | some (.header head lba) =>
          (chain s.mem q head).map fun ch => { s with
            mem := copy s.mem ch.data kSectorSize fun j =>
              if h : j < kSectorSize then cfg.disk lba ⟨j, h⟩ else 0
            inflight := s.inflight.set k (.data head lba) }
      | _ => none
  | .writeStatus k =>
      match s.inflight[k]? with
      | some (.data head _) =>
          (chain s.mem q head).map fun ch => { s with
            mem := store s.mem ch.status 1 kBlkSOk
            inflight := s.inflight.set k (.status head) }
      | _ => none
  | .writeError k code =>
      match s.inflight[k]? with
      | some (.header head _) | some (.data head _) =>
          if code = kBlkSOk ∨ 256 ≤ code then none
          else (chain s.mem q head).map fun ch => { s with
            mem := store s.mem ch.status 1 code
            inflight := s.inflight.set k (.status head) }
      | _ => none
  | .use k =>
      match s.inflight[k]? with
      | some (.status head) =>
          let entry := q.device.value + 4 + 8 * (s.devUsed % q.queueNum)
          some { s with
            mem := store (store (store s.mem entry 4 head) (entry + 4) 4
              (kSectorSize + 1)) (q.device.value + 2) 2 (inc16 s.devUsed)
            devUsed := inc16 s.devUsed
            inflight := s.inflight.eraseIdx k }
      | _ => none

/-- What happens next to the driver: a move of the device, or a write of any
other code to memory that is neither `g_dma` nor a buffer in use. -/
inductive Move where
  | device (move : DiskReader.Move)
  | write (x : Nat) (value : UInt8)
deriving DecidableEq, Repr

def move (q : Setup) (s : Shared Core) : Move → Option (Shared Core)
  | .device m => device cfg q s m
  | .write x value =>
      if site.dma ≤ x ∧ x < site.dma + kDmaSize ∨
          ∃ p ∈ s.pending, p.2.Covers x then none
      else some { s with mem := Function.update s.mem x value }

/-- `DiskReader::read_sectors` on any number of cores, next to a device with
the queue `q`. -/
def reader (Core : Type) [DecidableEq Core] (site : Site) (cfg : Config)
    (q : Setup) : Monitor.Object Core Request Bool Place (Shared Core) Move where
  start := start site cfg
  enter r s := ⟨r, r.loop 0, s.mem⟩
  step := step site
  move m s := move site cfg q s m

/-- The driver and the device behind a probe. -/
def Shared.fresh (m : Mem) : Shared Core := ⟨m, 0, 0, 0, [], [], false⟩

end Object

end Dma

end DiskReader

end IntroOs
