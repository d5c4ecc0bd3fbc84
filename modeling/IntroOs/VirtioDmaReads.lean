/-
The byte-level driver and device refine the ones of `VirtioDisk`.  Each access
is a step of the abstract driver or leaves the abstract state as it is, so the
invariant of the abstract runs holds of the bytes in memory, for calls from any
number of cores.  Of the callers' buffers this is so as long as no poll has
given up: the data of an abandoned request may come in while `memcpy` reads.
-/
import IntroOs.VirtioDma

namespace IntroOs

namespace DiskReader

namespace Dma

open ByteMem

def Phase.abs : Phase → DiskReader.Phase
  | .taken _ => .taken
  | .header _ lba => .header lba
  | .data _ lba => .data lba
  | .status _ => .status

def Phase.head : Phase → Nat
  | .taken head | .header head _ | .data head _ | .status head => head

def Pc.abs : Pc → DiskReader.Pc
  | .setType i | .setSector i => .setHeader i
  | .setStatus i => .setStatus i
  | .setDesc i _ | .setRing i => .setRing i
  | .publish i _ => .publish i
  | .notify i => .notify i
  | .poll i spins => .poll i spins
  | .check i => .check i
  | .copy i _ => .copy i
  | .ret ok => .ret ok

/-- How many descriptors this request has written. -/
def Pc.built : Pc → Nat
  | .setDesc _ k => k
  | .setRing _ | .publish _ _ | .notify _ | .poll _ _ => 3
  | _ => 0

/-- The sector that the loop is at. -/
def Pc.sector : Pc → Option Nat
  | .setType i | .setSector i | .setStatus i | .setDesc i _ | .setRing i
  | .publish i _ | .notify i | .poll i _ | .check i | .copy i _ => some i
  | .ret _ => none

/-- The local variables of `read_one`. -/
def Pc.Local (a : State) : Pc → Prop
  | .setDesc _ k => k < 3
  | .publish _ idx => idx = a.availIdx
  | .copy _ k => k < kSectorSize
  | _ => True

/-- The caller's buffer: as the abstract driver has it, but for the bytes of a
sector that are copied already. -/
def Pc.view (a : State) (pc : Pc) (i : Nat) (j : Fin kSectorSize) : UInt8 :=
  match pc with
  | .copy i' k => if i = i' ∧ (j : Nat) < k then a.data j else a.buf i j
  | _ => a.buf i j

section Simulation

variable {Core : Type} {site : Site} {cfg : Config}
  {q : Setup} {desc : Fin kQueueSize → Desc} {r : Request} {pc pc' : Pc}
  {s s' : Shared Core} {a a' : State} {m m' : Mem}

/-- The first `n` descriptors of the table are those of a request. -/
def Built (site : Site) (n : Nat) (desc : Fin kQueueSize → Desc) : Prop :=
  ∀ k : Fin kQueueSize, (k : Nat) < n → desc k = site.request k

/-- Memory and the variables of both parties are as in an abstract state, and
the descriptors are in place for what the device may still look at. -/
structure Mirrors (site : Site) (desc : Fin kQueueSize → Desc)
    (s : Shared Core) (a : State) : Prop where
  record : Record.read site.dma s.mem = ⟨desc, a.availIdx, fun _ => 0,
    a.usedIdx, kBlkTIn, a.header, a.status, a.data⟩
  devUsed : s.devUsed = a.usedIdx
  lastUsed : s.lastUsed = a.lastUsed
  devAvail : s.devAvail = a.devAvail
  inflight : s.inflight.map Phase.abs = a.inflight
  heads : ∀ p ∈ s.inflight, p.head = 0
  posted : DeviceIdle a ∨ Built site 3 desc

/-- A request that has passed the checks. -/
structure Placed (site : Site) (cfg : Config) (r : Request) : Prop where
  valid : cfg.valid = true
  count_lt : r.count < 2 ^ 32
  fits : r.buf + kSectorSize * r.count ≤ 2 ^ 64
  apart : r.buf + kSectorSize * r.count ≤ site.dma ∨
    site.dma + kDmaSize ≤ r.buf
  range : r.lba + r.count ≤ cfg.capacity

/-- The section at one of its places, next to the abstract state. -/
structure Works (site : Site) (desc : Fin kQueueSize → Desc) (r : Request)
    (pc : Pc) (s : Shared Core) (a : State) : Prop where
  mirrors : Mirrors site desc s a
  place : a.pc = pc.abs
  lba : a.lba = r.lba
  count : a.count = r.count
  buf : s.timedOut = false → ∀ i < r.count, ∀ j : Fin kSectorSize,
    s.mem (r.buf + i * kSectorSize + j) = pc.view a i j
  built : Built site pc.built desc
  lt : ∀ i, pc.sector = some i → i < r.count
  vars : pc.Local a

theorem request_fits (site : Site) (k : Nat) :
    (site.request k).addr < 2 ^ 64 ∧ (site.request k).len < 2 ^ 32 ∧
      (site.request k).flags < 2 ^ 16 ∧ (site.request k).next < 2 ^ 16 := by
  have hfits := site.dma_fits
  have hmember : ∀ {offset}, offset < kDmaSize → site.member offset < 2 ^ 64 := by
    intro offset hoffset
    rw [site.member_eq hoffset]
    omega
  rcases k with _ | _ | k
  all_goals
    refine ⟨hmember (by decide), ?_⟩
    simp [Site.request, kReqHeaderSize, kSectorSize, kDescFNext, kDescFWrite]

/-- The bytes of a buffer in use. -/
theorem Placed.covers (hp : Placed site cfg r) {i : Nat} (hi : i < r.count)
    (j : Fin kSectorSize) :
    r.Covers (r.buf + i * kSectorSize + j) ∧
      (r.buf + i * kSectorSize + j < site.dma ∨
        site.dma + kDmaSize ≤ r.buf + i * kSectorSize + j) := by
  have hapart := hp.apart
  have hj : (j : Nat) < 512 := j.isLt
  unfold Request.Covers
  simp only [kSectorSize] at hapart ⊢
  omega

theorem Placed.buf_kept (hp : Placed site cfg r)
    (h : EqOutside m' m site.dma (site.dma + kDmaSize)) {view : Nat → Sector}
    {timedOut : Bool}
    (hbuf : timedOut = false → ∀ i < r.count, ∀ j : Fin kSectorSize,
      m (r.buf + i * kSectorSize + j) = view i j) :
    timedOut = false → ∀ i < r.count, ∀ j : Fin kSectorSize,
      m' (r.buf + i * kSectorSize + j) = view i j := by
  intro htimed i hi j
  rw [h _ (hp.covers hi j).2]
  exact hbuf htimed i hi j

/-- But for the copy, the driver writes to `g_dma` only. -/
theorem work_eqOutside (hcopy : ∀ i k, pc ≠ .copy i k)
    (hvars : ∀ i k, pc = .setDesc i k → k < 3) :
    EqOutside (work site r s pc).2.mem s.mem site.dma
      (site.dma + kDmaSize) := by
  have hstore (m : Mem) {a n : Nat} (v : Nat) (ha : site.dma ≤ a)
      (hn : a + n ≤ site.dma + kDmaSize) :
      EqOutside (store m a n v) m site.dma (site.dma + kDmaSize) :=
    EqOutside.mono (store_eqOutside m a n v) ha hn
  have hsize : kDmaSize = 4096 := rfl
  have hrefl : EqOutside s.mem s.mem site.dma (site.dma + kDmaSize) :=
    fun _ _ => rfl
  cases pc with
  | setType i =>
      have hoffset := kHeaderOffset_eq
      exact (hstore _ _ (by omega) (by omega)).trans
        (hstore _ _ (by omega) (by omega))
  | setSector i =>
      have hoffset := kHeaderOffset_eq
      exact hstore _ _ (by omega) (by omega)
  | setStatus i =>
      have hoffset := kStatusOffset_eq
      exact hstore _ _ (by omega) (by omega)
  | setDesc i k =>
      have hk := hvars i k rfl
      have hoffset := kDescOffset_eq
      have hwrite := Desc.write_eqOutside s.mem (site.dma + kDescOffset) k
        (site.request k)
      rw [kDescSize] at hwrite
      exact hwrite.mono (by omega) (by omega)
  | setRing i =>
      have hoffset := kAvailOffset_eq
      have hslot : load s.mem (site.dma + kAvailOffset + 2) 2 % kQueueSize < 8 :=
        Nat.mod_lt _ (by decide)
      exact hstore _ _ (by omega) (by omega)
  | publish i idx =>
      have hoffset := kAvailOffset_eq
      exact hstore _ _ (by omega) (by omega)
  | notify i => exact hrefl
  | poll i spins =>
      rw [work]
      split
      · split <;> exact hrefl
      · exact hrefl
  | check i => exact hrefl
  | copy i k => exact absurd rfl (hcopy i k)
  | ret ok => exact hrefl

/-- The record without the members that only the requests of the driver
change. -/
theorem Mirrors.ring_zero (h : Mirrors site desc s a) (k : Fin kQueueSize) :
    load s.mem (site.dma + kAvailOffset + 4 + 2 * k) 2 = 0 :=
  congrFun (congrArg Record.ring h.record) k

theorem Mirrors.availIdx (h : Mirrors site desc s a) :
    load s.mem (site.dma + kAvailOffset + 2) 2 = a.availIdx :=
  congrArg Record.availIdx h.record

theorem Mirrors.usedIdx (h : Mirrors site desc s a) :
    load s.mem (site.dma + kUsedOffset + 2) 2 = a.usedIdx :=
  congrArg Record.usedIdx h.record

theorem Mirrors.type (h : Mirrors site desc s a) :
    load s.mem (site.dma + kHeaderOffset) 4 = kBlkTIn :=
  congrArg Record.type h.record

theorem Mirrors.sector (h : Mirrors site desc s a) :
    load s.mem (site.dma + kHeaderOffset + 8) 8 = a.header := by
  have hsector := congrArg Record.sector h.record
  simpa only [Record.read] using hsector

theorem Mirrors.status (h : Mirrors site desc s a) :
    load s.mem (site.dma + kStatusOffset) 1 = a.status :=
  congrArg Record.status h.record

theorem Mirrors.data (h : Mirrors site desc s a) (j : Fin kSectorSize) :
    s.mem (site.dma + kDataOffset + j) = a.data j :=
  congrFun (congrArg Record.data h.record) j

theorem Request.abs_loop (r : Request) (i : Nat) :
    (r.loop i).abs =
      if i < r.count then .setHeader i else .ret true := by
  unfold Request.loop
  split <;> rfl

/-- The head of the loop is a place like any other. -/
theorem Works.loop {i : Nat} (hmirrors : Mirrors site desc s a)
    (hlba : a.lba = r.lba) (hcount : a.count = r.count)
    (hbuf : s.timedOut = false → ∀ i < r.count, ∀ j : Fin kSectorSize,
      s.mem (r.buf + i * kSectorSize + j) = a.buf i j) :
    Works site desc r (r.loop i) s (a.loop i) where
  mirrors := ⟨hmirrors.record, hmirrors.devUsed, hmirrors.lastUsed,
    hmirrors.devAvail, hmirrors.inflight, hmirrors.heads, hmirrors.posted⟩
  place := by rw [State.loop, r.abs_loop, hcount]
  lba := hlba
  count := hcount
  buf := by
    unfold Request.loop
    split
    · exact hbuf
    · exact hbuf
  built := by
    unfold Request.loop
    split
    · exact fun k hk => absurd hk (Nat.not_lt_zero _)
    · exact fun k hk => absurd hk (Nat.not_lt_zero _)
  lt := by
    intro j hj
    unfold Request.loop at hj
    split at hj
    · cases hj
      assumption
    · cases hj
  vars := by
    unfold Request.loop
    split
    · trivial
    · trivial

/-- A built table is not changed by building it again. -/
theorem Built.update {n : Nat} (h : Built site n desc) (k : Fin kQueueSize) :
    Built site n (Function.update desc k (site.request k)) := by
  intro j hj
  by_cases hjk : j = k
  · rw [hjk, Function.update_self]
  · rw [Function.update_of_ne hjk]
    exact h j hj

theorem Built.succ {k : Fin kQueueSize} (h : Built site k desc) :
    Built site (k + 1) (Function.update desc k (site.request k)) := by
  intro j hj
  by_cases hjk : j = k
  · rw [hjk, Function.update_self]
  · have hne : (j : Nat) ≠ k := fun heq => hjk (Fin.ext heq)
    rw [Function.update_of_ne hjk]
    exact h j (by omega)

/-- The abstract driver follows an access of the driver: with a step of its
own, or with none. -/
def Follows (site : Site) (r : Request) (pc : Pc) (s : Shared Core)
    (a : State) : Prop :=
  ∃ desc' a', Works site desc' r (work site r s pc).1 (work site r s pc).2 a' ∧
    (a' = a ∨ driver a = some a')

/-- The header and the status byte. -/
theorem Works.setSector {i : Nat} (hp : Placed site cfg r)
    (h : Works site desc r (.setSector i) s a) :
    Follows site r (.setSector i) s a := by
  obtain ⟨⟨hrecord, hdevUsed, hlast, hdevAvail, hflight, hheads, hposted⟩,
    hplace, hlba, hcount, hbuf, hbuilt, hlt, -⟩ := h
  have hi := hlt i rfl
  have hrange := hp.range
  have hcapacity := cfg.capacity_lt
  have hsector : (r.lba + i) % 2 ^ 64 = a.lba + i := by
    rw [hlba]
    exact Nat.mod_eq_of_lt (by omega)
  refine ⟨desc, { a with header := a.lba + i, pc := .setStatus i },
    ⟨⟨?_, hdevUsed, hlast, hdevAvail, hflight, hheads, hposted⟩, rfl, hlba,
    hcount, hp.buf_kept (work_eqOutside (by simp) (by simp)) hbuf, hbuilt, hlt,
    trivial⟩, .inr ?_⟩
  · rw [work, hsector]
    exact Record.read_setSector _ hrecord (by omega)
  · rw [driver, hplace]
    rfl

/-- The next of the three descriptors. -/
theorem Works.setDesc {i k : Nat} (hp : Placed site cfg r)
    (h : Works site desc r (.setDesc i k) s a) :
    Follows site r (.setDesc i k) s a := by
  obtain ⟨⟨hrecord, hdevUsed, hlast, hdevAvail, hflight, hheads, hposted⟩,
    hplace, hlba, hcount, hbuf, hbuilt, hlt, hvars⟩ := h
  have hk : k < 3 := hvars
  have hk8 : k < kQueueSize := Nat.lt_trans hk (by decide)
  obtain ⟨haddr, hlen, hflags, hnext⟩ := request_fits site k
  have hdesc := Record.read_setDesc _ hrecord ⟨k, hk8⟩ haddr hlen hflags hnext
  have hsucc : Built site (k + 1) (Function.update desc ⟨k, hk8⟩
    (site.request k)) := Built.succ (k := ⟨k, hk8⟩) hbuilt
  have hmirrors : Mirrors site (Function.update desc ⟨k, hk8⟩
      (site.request k)) (work site r s (.setDesc i k)).2 a :=
    ⟨hdesc, hdevUsed, hlast, hdevAvail, hflight, hheads,
      hposted.imp_right fun hb => hb.update ⟨k, hk8⟩⟩
  have hout : EqOutside (work site r s (.setDesc i k)).2.mem s.mem site.dma
      (site.dma + kDmaSize) := work_eqOutside (by simp) (by simp [hk])
  have hbuf' := hp.buf_kept hout hbuf
  refine ⟨Function.update desc ⟨k, hk8⟩ (site.request k), a, ?_, .inl rfl⟩
  by_cases hmore : k < 2
  · have hnext : (work site r s (.setDesc i k)).1 = .setDesc i (k + 1) :=
      if_pos hmore
    rw [hnext]
    exact ⟨hmirrors, hplace, hlba, hcount, hbuf', hsucc, hlt,
      Nat.succ_lt_succ hmore⟩
  · have hnext : (work site r s (.setDesc i k)).1 = .setRing i := if_neg hmore
    obtain rfl : k = 2 := by omega
    rw [hnext]
    exact ⟨hmirrors, hplace, hlba, hcount, hbuf', hsucc, hlt, trivial⟩

theorem Works.setRing {i : Nat} (hp : Placed site cfg r)
    (h : Works site desc r (.setRing i) s a) :
    Follows site r (.setRing i) s a := by
  obtain ⟨hmirrors, hplace, hlba, hcount, hbuf, hbuilt, hlt, -⟩ := h
  have hslot : a.availIdx % kQueueSize < kQueueSize := Nat.mod_lt _ (by decide)
  have hring := Record.read_setRing _ hmirrors.record ⟨_, hslot⟩
    (show 0 < 2 ^ 16 by decide)
  refine ⟨desc, { a with
    ring := Function.update a.ring (a.availIdx % kQueueSize) 0
    pc := .publish i }, ⟨⟨?_, hmirrors.devUsed, hmirrors.lastUsed,
    hmirrors.devAvail, hmirrors.inflight, hmirrors.heads, hmirrors.posted⟩, rfl,
    hlba, hcount, hp.buf_kept (work_eqOutside (by simp) (by simp)) hbuf, hbuilt,
    hlt, hmirrors.availIdx⟩, .inr ?_⟩
  · rw [work]
    dsimp only
    rw [hmirrors.availIdx]
    refine hring.trans ?_
    rw [Function.update_eq_self]
  · rw [driver, hplace]
    rfl

/-- The wait for the device. -/
theorem Works.poll {i spins : Nat} (h : Works site desc r (.poll i spins) s a) :
    Follows site r (.poll i spins) s a := by
  obtain ⟨hmirrors, hplace, hlba, hcount, hbuf, hbuilt, hlt, -⟩ := h
  obtain ⟨hrecord, hdevUsed, hlast, hdevAvail, hflight, hheads, hposted⟩ :=
    id hmirrors
  have hdriver : driver a =
      if a.usedIdx = a.lastUsed then
        if spins + 1 > kPollLimit then some { a with pc := .ret false }
        else some { a with pc := .poll i (spins + 1) }
      else some { a with lastUsed := inc16 a.lastUsed, pc := .check i } := by
    rw [driver, hplace]
    rfl
  rw [Follows, work, hmirrors.usedIdx, hdriver]
  by_cases hwait : a.usedIdx = a.lastUsed
  · rw [if_pos (hwait.trans hlast.symm), if_pos hwait]
    by_cases hlimit : spins + 1 > kPollLimit
    · rw [if_pos hlimit, if_pos hlimit]
      exact ⟨desc, { a with pc := .ret false }, ⟨⟨hrecord, hdevUsed, hlast,
        hdevAvail, hflight, hheads, hposted⟩, rfl, hlba, hcount,
        fun htimed => absurd htimed.symm Bool.false_ne_true,
        fun k hk => absurd hk (Nat.not_lt_zero _), by simp [Pc.sector],
        trivial⟩, .inr rfl⟩
    · rw [if_neg hlimit, if_neg hlimit]
      exact ⟨desc, { a with pc := .poll i (spins + 1) }, ⟨⟨hrecord, hdevUsed,
        hlast, hdevAvail, hflight, hheads, hposted⟩, rfl, hlba, hcount, hbuf,
        hbuilt, hlt, trivial⟩, .inr rfl⟩
  · rw [if_neg fun heq => hwait (heq.trans hlast), if_neg hwait]
    exact ⟨desc, { a with lastUsed := inc16 a.lastUsed, pc := .check i },
      ⟨⟨hrecord, hdevUsed, congrArg inc16 hlast, hdevAvail, hflight, hheads,
      hposted⟩, rfl, hlba, hcount, hbuf,
      fun k hk => absurd hk (Nat.not_lt_zero _), hlt, trivial⟩, .inr rfl⟩

theorem Works.check {i : Nat} (h : Works site desc r (.check i) s a) :
    Follows site r (.check i) s a := by
  obtain ⟨hmirrors, hplace, hlba, hcount, hbuf, hbuilt, hlt, -⟩ := h
  obtain ⟨hrecord, hdevUsed, hlast, hdevAvail, hflight, hheads, hposted⟩ :=
    id hmirrors
  have hdriver : driver a =
      if a.status = kBlkSOk then some { a with pc := .copy i }
      else some { a with pc := .ret false } := by
    rw [driver, hplace]
    rfl
  have hview (i' : Nat) (j : Fin kSectorSize) :
      (Pc.copy i 0).view { a with pc := .copy i } i' j = a.buf i' j :=
    if_neg fun hdone => absurd hdone.2 (Nat.not_lt_zero _)
  rw [Follows, work, hmirrors.status, hdriver]
  by_cases hok : a.status = kBlkSOk
  · rw [if_pos hok, if_pos hok]
    exact ⟨desc, { a with pc := .copy i }, ⟨⟨hrecord, hdevUsed, hlast,
      hdevAvail, hflight, hheads, hposted⟩, rfl, hlba, hcount,
      fun htimed i' hi' j => (hbuf htimed i' hi' j).trans (hview i' j).symm,
      hbuilt, hlt, Nat.zero_lt_succ 511⟩, .inr rfl⟩
  · rw [if_neg hok, if_neg hok]
    exact ⟨desc, { a with pc := .ret false }, ⟨⟨hrecord, hdevUsed, hlast,
      hdevAvail, hflight, hheads, hposted⟩, rfl, hlba, hcount, hbuf, hbuilt,
      by simp [Pc.sector], trivial⟩, .inr rfl⟩

theorem eqOn_update {x lo hi : Nat} (h : ¬ (lo ≤ x ∧ x < hi))
    (value : UInt8) : EqOn (Function.update m x value) m lo hi := by
  intro y hlo hhi
  exact Function.update_of_ne (by rintro rfl; exact h ⟨hlo, hhi⟩) _ _

/-- A write elsewhere. -/
theorem Mirrors.elsewhere (h : Mirrors site desc s a)
    (hm : EqOn m' s.mem site.dma (site.dma + kDmaSize)) :
    Mirrors site desc { s with mem := m' } a := by
  have hsize := kDmaSize_eq
  exact ⟨(Record.read_of_eqOn (hm.mono (Nat.le_refl _) (by omega))
    (hm.mono (by omega) (by omega))).trans h.record, h.devUsed, h.lastUsed,
    h.devAvail, h.inflight, h.heads, h.posted⟩

/-- A round of `memcpy` from `g_dma` to the caller. -/
theorem Placed.moveByte_eq (hp : Placed site cfg r) {i k : Nat}
    (hi : i < r.count) (hk : k < kSectorSize) (m : Mem) :
    Memmove.moveByte (r.buf + i * kSectorSize) (site.dma + kDataOffset) k m =
      Function.update m (r.buf + i * kSectorSize + k)
        (m (site.dma + kDataOffset + k)) := by
  have hfits := hp.fits
  have hdma := site.dma_fits
  have hsize : kDmaSize = 4096 := rfl
  have hoffset := kDataOffset_eq
  simp only [kSectorSize] at hfits hk ⊢
  funext x
  rw [Memmove.moveByte, Memmove.addr_eq (by omega), Memmove.addr_eq (by omega),
    Function.update_apply]

/-- The bytes of the buffer behind a round of `memcpy`. -/
theorem Works.view_copy {i k : Nat}
    (h : Works site desc r (.copy i k) s a) (htimed : s.timedOut = false)
    (i' : Nat) (hi' : i' < r.count) (j : Fin kSectorSize) :
    Function.update s.mem (r.buf + i * kSectorSize + k)
        (s.mem (site.dma + kDataOffset + k)) (r.buf + i' * kSectorSize + j) =
      if i' = i ∧ (j : Nat) < k + 1 then a.data j else a.buf i' j := by
  have hk : k < kSectorSize := h.vars
  have hj : (j : Nat) < 512 := j.isLt
  by_cases hhere : i' = i ∧ (j : Nat) = k
  · obtain ⟨rfl, rfl⟩ := hhere
    rw [Function.update_self, if_pos ⟨rfl, Nat.lt_succ_self _⟩]
    exact h.mirrors.data j
  · have hne : r.buf + i' * kSectorSize + j ≠ r.buf + i * kSectorSize + k := by
      simp only [kSectorSize] at hk ⊢
      omega
    have hiff : i' = i ∧ (j : Nat) < k + 1 ↔ i' = i ∧ (j : Nat) < k := by
      omega
    rw [Function.update_of_ne hne, h.buf htimed i' hi' j, Pc.view]
    simp only [hiff]

theorem Works.copy {i k : Nat} (hp : Placed site cfg r)
    (h : Works site desc r (.copy i k) s a) :
    Follows site r (.copy i k) s a := by
  have hi := h.lt i rfl
  have hk : k < kSectorSize := h.vars
  have hapart := hp.apart
  have hbyte : ¬ (site.dma ≤ r.buf + i * kSectorSize + k ∧
      r.buf + i * kSectorSize + k < site.dma + kDmaSize) := by
    have hcovers := (hp.covers hi ⟨k, hk⟩).2
    dsimp only at hcovers
    omega
  have hmirrors := h.mirrors.elsewhere (eqOn_update (m := s.mem) hbyte
    (s.mem (site.dma + kDataOffset + k)))
  rw [Follows, work, hp.moveByte_eq hi hk]
  by_cases hmore : k + 1 < kSectorSize
  · rw [if_pos hmore]
    exact ⟨desc, a, ⟨hmirrors, h.place, h.lba, h.count, h.view_copy,
      fun _ hk => absurd hk (Nat.not_lt_zero _), h.lt, hmore⟩, .inl rfl⟩
  · rw [if_neg hmore]
    refine ⟨desc, { a with buf := Function.update a.buf i a.data }.loop (i + 1),
      Works.loop (a := { a with buf := Function.update a.buf i a.data })
        ⟨hmirrors.record, hmirrors.devUsed, hmirrors.lastUsed,
          hmirrors.devAvail, hmirrors.inflight, hmirrors.heads,
          hmirrors.posted⟩ h.lba h.count ?_, .inr ?_⟩
    · intro htimed i' hi' j
      have hj : (j : Nat) < k + 1 := Nat.lt_of_lt_of_le j.isLt (by omega)
      refine (h.view_copy htimed i' hi' j).trans ?_
      by_cases heq : i' = i
      · subst heq
        rw [if_pos ⟨rfl, hj⟩]
        dsimp only
        rw [Function.update_self]
      · rw [if_neg fun hdone => heq hdone.1]
        dsimp only
        rw [Function.update_of_ne heq]
    · rw [driver, h.place]
      rfl

/-- Each access of the driver is a step of the abstract driver, or is one that
the abstract driver does not make. -/
theorem Works.step (hp : Placed site cfg r) (h : Works site desc r pc s a)
    (hret : ∀ ok, pc ≠ .ret ok) : Follows site r pc s a := by
  cases pc with
  | setSector i => exact h.setSector hp
  | setDesc i k => exact h.setDesc hp
  | setRing i => exact h.setRing hp
  | poll i spins => exact h.poll
  | check i => exact h.check
  | copy i k => exact h.copy hp
  | ret ok => exact absurd rfl (hret ok)
  | setType i =>
      obtain ⟨⟨hrecord, hdevUsed, hlast, hdevAvail, hflight, hheads, hposted⟩,
        hplace, hlba, hcount, hbuf, hbuilt, hlt, hvars⟩ := h
      exact ⟨desc, a, ⟨⟨Record.read_setType _ hrecord, hdevUsed, hlast,
        hdevAvail, hflight, hheads, hposted⟩, hplace, hlba, hcount,
        hp.buf_kept (work_eqOutside (by simp) (by simp)) hbuf, hbuilt, hlt,
        hvars⟩, .inl rfl⟩
  | setStatus i =>
      obtain ⟨⟨hrecord, hdevUsed, hlast, hdevAvail, hflight, hheads, hposted⟩,
        hplace, hlba, hcount, hbuf, hbuilt, hlt, hvars⟩ := h
      have hstatus := Record.read_setStatus _ hrecord
        (show kStatusPending < 256 by decide)
      refine ⟨desc, { a with status := kStatusPending, pc := .setRing i },
        ⟨⟨hstatus, hdevUsed, hlast, hdevAvail, hflight, hheads, hposted⟩, rfl,
        hlba, hcount, hp.buf_kept (work_eqOutside (by simp) (by simp)) hbuf,
        hbuilt, hlt, Nat.zero_lt_succ 2⟩, .inr ?_⟩
      rw [driver, hplace]
      rfl
  | publish i idx =>
      obtain ⟨⟨hrecord, hdevUsed, hlast, hdevAvail, hflight, hheads, hposted⟩,
        hplace, hlba, hcount, hbuf, hbuilt, hlt, hvars⟩ := h
      obtain rfl : idx = a.availIdx := hvars
      have havail := Record.read_setAvail _ hrecord (inc16_lt a.availIdx)
      refine ⟨desc, { a with availIdx := inc16 a.availIdx, pc := .notify i },
        ⟨⟨havail, hdevUsed, hlast, hdevAvail, hflight, hheads, .inr hbuilt⟩,
        rfl, hlba, hcount, hp.buf_kept (work_eqOutside (by simp) (by simp)) hbuf,
        hbuilt, hlt, trivial⟩, .inr ?_⟩
      rw [driver, hplace]
      rfl
  | notify i =>
      obtain ⟨⟨hrecord, hdevUsed, hlast, hdevAvail, hflight, hheads, hposted⟩,
        hplace, hlba, hcount, hbuf, hbuilt, hlt, hvars⟩ := h
      refine ⟨desc, { a with pc := .poll i 0 },
        ⟨⟨hrecord, hdevUsed, hlast, hdevAvail, hflight, hheads, hposted⟩, rfl,
        hlba, hcount, hbuf, hbuilt, hlt, trivial⟩, .inr ?_⟩
      rw [driver, hplace]
      rfl

/-- The driver writes to `g_dma`, and in a round of `memcpy` to one byte of the
buffer of its caller. -/
theorem Works.changes (hp : Placed site cfg r) (h : Works site desc r pc s a)
    {x : Nat} (hx : (work site r s pc).2.mem x ≠ s.mem x) :
    (site.dma ≤ x ∧ x < site.dma + kDmaSize) ∨
      ∃ i k, pc = .copy i k ∧ i < r.count ∧ k < kSectorSize ∧
        x = r.buf + i * kSectorSize + k := by
  by_cases hcopy : ∃ i k, pc = .copy i k
  · obtain ⟨i, k, rfl⟩ := hcopy
    have hi := h.lt i rfl
    have hk : k < kSectorSize := h.vars
    refine .inr ⟨i, k, rfl, hi, hk, ?_⟩
    rw [work, hp.moveByte_eq hi hk] at hx
    by_contra hne
    exact hx (Function.update_of_ne hne _ _)
  · have hout : EqOutside (work site r s pc).2.mem s.mem site.dma _ :=
      work_eqOutside (fun i k hpc => hcopy ⟨i, k, hpc⟩) (fun i k hk => by
        have hvars := h.vars
        rw [hk] at hvars
        exact hvars)
    refine .inl ?_
    by_contra hne
    exact hx (hout x (by omega))

/-- That a poll has given up is not forgotten. -/
theorem work_patient
    (hpatient : (work site r s pc).2.timedOut = false) :
    s.timedOut = false := by
  cases pc with
  | poll i spins =>
      rw [work] at hpatient
      split at hpatient
      · split at hpatient
        · cases hpatient
        · exact hpatient
      · exact hpatient
  | _ => exact hpatient

/-- The poll that gives up is the one of the abstract driver. -/
theorem Works.patient (h : Works site desc r pc s a)
    (hpatient : (work site r s pc).2.timedOut = false) :
    s.timedOut = false ∧ ¬ TimesOut a := by
  have hpoll : TimesOut a → ∃ i spins, pc = .poll i spins ∧
      s.lastUsed = load s.mem (site.dma + kUsedOffset + 2) 2 ∧
      spins + 1 > kPollLimit := by
    intro htimes
    rw [TimesOut, h.place] at htimes
    cases pc with
    | poll i spins =>
        refine ⟨i, spins, rfl, ?_, htimes.2⟩
        rw [h.mirrors.usedIdx, h.mirrors.lastUsed]
        exact htimes.1.symm
    | _ => exact htimes.elim
  refine ⟨work_patient hpatient, fun htimes => ?_⟩
  obtain ⟨i, spins, rfl, hwait, hlimit⟩ := hpoll htimes
  rw [work, if_pos hwait.symm, if_pos hlimit] at hpatient
  cases hpatient

section Device

variable {move : DiskReader.Move} {k : Nat}

/-- The buffers of the requests, as the device sees them. -/
def buffers (site : Site) : Chain :=
  ⟨site.dma + kHeaderOffset, site.dma + kDataOffset, site.dma + kStatusOffset⟩

/-- The chain that the device follows from the first descriptor leads to the
header, the data and the status byte. -/
theorem Mirrors.chain_eq (hq : Probe.Live site.dma q)
    (h : Mirrors site desc s a) (hbuilt : Built site 3 desc) :
    chain s.mem q 0 = some (buffers site) := by
  have hdesc (k : Nat) (hk : k < 3) :
      Desc.read s.mem q.desc.value k = site.request k := by
    have hk8 : k < kQueueSize := Nat.lt_trans hk (by decide)
    rw [hq.desc]
    exact (congrFun (congrArg Record.desc h.record) ⟨k, hk8⟩).trans
      (hbuilt ⟨k, hk8⟩ hk)
  have hhead : Desc.read s.mem q.desc.value 0 = site.request 0 :=
    hdesc 0 (by decide)
  have hdata : Desc.read s.mem q.desc.value (site.request 0).next =
      site.request 1 := hdesc 1 (by decide)
  have hstatus : Desc.read s.mem q.desc.value (site.request 1).next =
      site.request 2 := hdesc 2 (by decide)
  rw [chain, hhead, hdata, hstatus, hq.length]
  rw [if_pos ⟨by decide, rfl, rfl, Nat.lt_of_sub_eq_succ rfl, rfl, rfl,
    Nat.lt_of_sub_eq_succ rfl, rfl, rfl⟩]
  simp only [Site.request, buffers]
  rw [site.member_eq (by decide), site.member_eq (by decide),
    site.member_eq (by decide)]

theorem Mirrors.lookup (h : Mirrors site desc s a) (k : Nat) :
    a.inflight[k]? = s.inflight[k]?.map Phase.abs := by
  rw [← h.inflight, List.getElem?_map]

/-- The device is busy once it has a request. -/
theorem Mirrors.built_of_flight (h : Mirrors site desc s a) {p : Phase}
    (hp : s.inflight[k]? = some p) : Built site 3 desc := by
  refine h.posted.resolve_left fun hidle => ?_
  have hlookup := h.lookup k
  rw [hidle.1, hp] at hlookup
  cases hlookup

/-- A request in flight leads to its buffers. -/
theorem Mirrors.chain_of_flight (hq : Probe.Live site.dma q)
    (h : Mirrors site desc s a) {p : Phase} (hp : s.inflight[k]? = some p) :
    chain s.mem q p.head = some (buffers site) := by
  rw [h.heads p (List.mem_of_getElem? hp)]
  exact h.chain_eq hq (h.built_of_flight hp)

/-- The requests in flight behind a move of one of them. -/
theorem Mirrors.set_inflight (h : Mirrors site desc s a) {p : Phase}
    (hp : p.head = 0) (k : Nat) :
    (s.inflight.set k p).map Phase.abs = a.inflight.set k p.abs ∧
      ∀ p' ∈ s.inflight.set k p, p'.head = 0 := by
  refine ⟨by rw [List.map_set, h.inflight], fun p' hp' => ?_⟩
  rcases List.mem_or_eq_of_mem_set hp' with hmem | rfl
  · exact h.heads p' hmem
  · exact hp

/-- What a move of the device comes to. -/
structure Moved (site : Site) (desc : Fin kQueueSize → Desc)
    (s s' : Shared Core) (a' : State) : Prop where
  mirrors : Mirrors site desc s' a'
  outside : EqOutside s'.mem s.mem site.dma (site.dma + kDmaSize)

/-- The device leaves the ghosts alone. -/
theorem device_ghosts (h : device cfg q s move = some s') :
    s'.pending = s.pending ∧ s'.timedOut = s.timedOut := by
  cases move with
  | take =>
      rw [device] at h
      split at h
      · cases h
      · cases h
        exact ⟨rfl, rfl⟩
  | readHeader k =>
      rw [device] at h
      split at h
      · obtain ⟨ch, -, h⟩ := Option.bind_eq_some_iff.mp h
        split at h
        · cases h
          exact ⟨rfl, rfl⟩
        · cases h
      · cases h
  | writeData k | writeStatus k =>
      rw [device] at h
      split at h
      · obtain ⟨ch, -, rfl⟩ := Option.map_eq_some_iff.mp h
        exact ⟨rfl, rfl⟩
      · cases h
  | writeError k code =>
      rw [device] at h
      split at h
      iterate 2
        · split at h
          · cases h
          · obtain ⟨ch, -, rfl⟩ := Option.map_eq_some_iff.mp h
            exact ⟨rfl, rfl⟩
      · cases h
  | use k =>
      rw [device] at h
      split at h
      · cases h
        exact ⟨rfl, rfl⟩
      · cases h

theorem Mirrors.take (hq : Probe.Live site.dma q) (h : Mirrors site desc s a)
    (hmove : device cfg q s .take = some s') :
    ∃ a', DiskReader.device cfg a .take = some a' ∧
      Moved site desc s s' a' := by
  rw [device, hq.driver, hq.length, h.availIdx, h.devAvail] at hmove
  split at hmove
  · cases hmove
  · next hne =>
      have hslot : a.devAvail % kQueueSize < kQueueSize :=
        Nat.mod_lt _ (by decide)
      rw [h.ring_zero ⟨_, hslot⟩] at hmove
      cases hmove
      refine ⟨_, if_neg hne, ⟨h.record, h.devUsed, h.lastUsed, rfl, ?_, ?_,
        .inr (h.posted.resolve_left fun hidle => hne hidle.2)⟩,
        fun _ _ => rfl⟩
      · rw [List.map_append, h.inflight]
        rfl
      · intro p hp
        rcases List.mem_append.mp hp with hp | hp
        · exact h.heads p hp
        · rw [List.mem_singleton.mp hp]
          rfl

theorem Mirrors.readHeader (hq : Probe.Live site.dma q)
    (h : Mirrors site desc s a)
    (hmove : device cfg q s (.readHeader k) = some s') :
    ∃ a', DiskReader.device cfg a (.readHeader k) = some a' ∧
      Moved site desc s s' a' := by
  rw [device] at hmove
  split at hmove
  · next head hp =>
      have hhead : head = 0 := h.heads _ (List.mem_of_getElem? hp)
      have hchain : chain s.mem q head = some (buffers site) :=
        h.chain_of_flight hq hp
      have hheader : (buffers site).header = site.dma + kHeaderOffset := rfl
      rw [hchain, Option.bind_some, hheader, if_pos h.type, h.sector] at hmove
      cases hmove
      obtain ⟨hmap, hheads⟩ := h.set_inflight (p := .header head a.header)
        hhead k
      have hlookup : a.inflight[k]? = some .taken := by
        rw [h.lookup, hp]
        rfl
      exact ⟨_, if_pos hlookup, ⟨h.record, h.devUsed, h.lastUsed, h.devAvail,
        hmap, hheads, .inr (h.built_of_flight hp)⟩, fun _ _ => rfl⟩
  · cases hmove

/-- What the device reads from the disk, byte by byte. -/
theorem sector_bytes (disk : Sector) :
    (fun j : Fin kSectorSize => if h : (j : Nat) < kSectorSize
      then disk ⟨j, h⟩ else 0) = disk :=
  funext fun j => dif_pos j.isLt

theorem Mirrors.writeData (hq : Probe.Live site.dma q)
    (h : Mirrors site desc s a)
    (hmove : device cfg q s (.writeData k) = some s') :
    ∃ a', DiskReader.device cfg a (.writeData k) = some a' ∧
      Moved site desc s s' a' := by
  rw [device] at hmove
  split at hmove
  · next head lba hp =>
      have hhead : head = 0 := h.heads _ (List.mem_of_getElem? hp)
      have hchain : chain s.mem q head = some (buffers site) :=
        h.chain_of_flight hq hp
      have hdata : (buffers site).data = site.dma + kDataOffset := rfl
      rw [hchain, Option.map_some, hdata] at hmove
      cases hmove
      obtain ⟨hmap, hheads⟩ := h.set_inflight (p := .data head lba) hhead k
      have hlookup : a.inflight[k]? = some (.header lba) := by
        rw [h.lookup, hp]
        rfl
      have hrecord := Record.read_setData s.mem h.record
        fun j => if h : j < kSectorSize then cfg.disk lba ⟨j, h⟩ else 0
      rw [sector_bytes] at hrecord
      have hcopied := copy_eqOutside s.mem (site.dma + kDataOffset) kSectorSize
        fun j => if h : j < kSectorSize then cfg.disk lba ⟨j, h⟩ else 0
      refine ⟨{ a with data := cfg.disk lba
                       inflight := a.inflight.set k (.data lba) }, ?_,
        ⟨hrecord, h.devUsed, h.lastUsed, h.devAvail, hmap, hheads,
        .inr (h.built_of_flight hp)⟩, hcopied.mono (Nat.le_add_right _ _) ?_⟩
      · rw [DiskReader.device, hlookup]
      · rw [kDataOffset_eq, kDmaSize_eq, Nat.add_assoc]
        exact Nat.add_le_add_left (by decide) _
  · cases hmove

/-- The status that a move writes, and the request it is for. -/
theorem Mirrors.setStatus (hq : Probe.Live site.dma q)
    (h : Mirrors site desc s a) {p : Phase} {code : Nat}
    (hp : s.inflight[k]? = some p) (hcode : code < 256)
    (hmove : (chain s.mem q p.head).map (fun ch => { s with
      mem := store s.mem ch.status 1 code
      inflight := s.inflight.set k (.status p.head) }) = some s') :
    Moved site desc s s'
      { a with status := code, inflight := a.inflight.set k .status } := by
  have hhead : p.head = 0 := h.heads _ (List.mem_of_getElem? hp)
  rw [h.chain_of_flight hq hp, Option.map_some] at hmove
  cases hmove
  obtain ⟨hmap, hheads⟩ := h.set_inflight (p := .status p.head) hhead k
  exact ⟨⟨Record.read_setStatus _ h.record hcode, h.devUsed, h.lastUsed,
    h.devAvail, hmap, hheads, .inr (h.built_of_flight hp)⟩,
    EqOutside.mono (store_eqOutside _ _ _ _) (Nat.le_add_right _ _)
      (by simp only [buffers, kStatusOffset_eq, kDmaSize_eq]; omega)⟩

theorem Mirrors.writeStatus (hq : Probe.Live site.dma q)
    (h : Mirrors site desc s a)
    (hmove : device cfg q s (.writeStatus k) = some s') :
    ∃ a', DiskReader.device cfg a (.writeStatus k) = some a' ∧
      Moved site desc s s' a' := by
  rw [device] at hmove
  split at hmove
  · next head lba hp =>
      have hlookup : a.inflight[k]? = some (.data lba) := by
        rw [h.lookup, hp]
        rfl
      refine ⟨_, ?_, h.setStatus hq hp (by decide) hmove⟩
      rw [DiskReader.device, hlookup]
  · cases hmove

theorem Mirrors.writeError {code : Nat} (hq : Probe.Live site.dma q)
    (h : Mirrors site desc s a)
    (hmove : device cfg q s (.writeError k code) = some s') :
    ∃ a', DiskReader.device cfg a (.writeError k code) = some a' ∧
      Moved site desc s s' a' := by
  rw [device] at hmove
  split at hmove
  · next head lba hp =>
      split at hmove
      · cases hmove
      · next hcode =>
          have hlookup : a.inflight[k]? = some (.header lba) := by
            rw [h.lookup, hp]
            rfl
          refine ⟨_, ?_, h.setStatus hq hp (by omega) hmove⟩
          rw [DiskReader.device, hlookup]
          exact if_neg fun hok => hcode (.inl hok)
  · next head lba hp =>
      split at hmove
      · cases hmove
      · next hcode =>
          have hlookup : a.inflight[k]? = some (.data lba) := by
            rw [h.lookup, hp]
            rfl
          refine ⟨_, ?_, h.setStatus hq hp (by omega) hmove⟩
          rw [DiskReader.device, hlookup]
          exact if_neg fun hok => hcode (.inl hok)
  · cases hmove

/-- The used ring is written to, and its index is raised. -/
theorem Mirrors.use (hq : Probe.Live site.dma q) (h : Mirrors site desc s a)
    (hmove : device cfg q s (.use k) = some s') :
    ∃ a', DiskReader.device cfg a (.use k) = some a' ∧
      Moved site desc s s' a' := by
  rw [device, hq.device, hq.length] at hmove
  split at hmove
  · next head hp =>
      have hlookup : a.inflight[k]? = some .status := by
        rw [h.lookup, hp]
        rfl
      have hslot : s.devUsed % kQueueSize < 8 := Nat.mod_lt _ (by decide)
      have hused := kUsedOffset_eq
      have hsize := kDmaSize_eq
      set entry := site.dma + kUsedOffset + 4 + 8 * (s.devUsed % kQueueSize)
        with hentry
      have hring : EqOutside (store (store s.mem entry 4 head) (entry + 4) 4
          (kSectorSize + 1)) s.mem entry (entry + 8) := by
        refine EqOutside.trans
          (EqOutside.mono (store_eqOutside _ _ _ _) (by omega) (by omega)) ?_
        exact EqOutside.mono (store_eqOutside _ _ _ _) (by omega) (by omega)
      have hread : Record.read site.dma (store (store s.mem entry 4 head)
          (entry + 4) 4 (kSectorSize + 1)) = Record.read site.dma s.mem :=
        Record.read_of_eqOn (hring.eqOn_below (by omega))
          (hring.eqOn_above (by omega))
      have hrecord := hread.trans h.record
      cases hmove
      refine ⟨_, if_pos hlookup, ⟨?_, congrArg inc16 h.devUsed, h.lastUsed,
        h.devAvail, ?_, fun p hmem => h.heads p (List.mem_of_mem_eraseIdx hmem),
        .inr (h.built_of_flight hp)⟩, ?_⟩
      · rw [← h.devUsed]
        exact Record.read_setUsed _ hrecord (inc16_lt _)
      · rw [← h.inflight, List.eraseIdx_map]
      · refine EqOutside.trans
          (EqOutside.mono (store_eqOutside _ _ _ _) (by omega) (by omega)) ?_
        exact hring.mono (by omega) (by omega)
  · cases hmove

/-- The device does on memory what it does on the abstract state, and writes
to `g_dma` only. -/
theorem Mirrors.device (hq : Probe.Live site.dma q)
    (h : Mirrors site desc s a) (hmove : device cfg q s move = some s') :
    ∃ a', DiskReader.device cfg a move = some a' ∧
      Moved site desc s s' a' := by
  cases move with
  | take => exact h.take hq hmove
  | readHeader k => exact h.readHeader hq hmove
  | writeData k => exact h.writeData hq hmove
  | writeStatus k => exact h.writeStatus hq hmove
  | writeError k code => exact h.writeError hq hmove
  | use k => exact h.use hq hmove

end Device

theorem Mirrors.with_pending (h : Mirrors site desc s a)
    (pending : List (Core × Request)) :
    Mirrors site desc { s with pending := pending } a :=
  ⟨h.record, h.devUsed, h.lastUsed, h.devAvail, h.inflight, h.heads, h.posted⟩

/-- The abstract call goes on with the driver. -/
theorem exists_working [DecidableEq Core] {call : Call Core}
    (hrange : InRange cfg call a) (h : Working cfg call a)
    (hpatient : ¬ TimesOut a) (hstep : driver a = some a')
    (hret : ∀ ok, a.pc ≠ .ret ok) :
    ∃ call' : Call Core, call'.buf = call.buf ∧ InRange cfg call' a' ∧
      Working cfg call' a' := by
  by_cases hpublish : ∃ i, a.pc = .publish i
  · obtain ⟨i, hpc⟩ := hpublish
    obtain ⟨-, -, -, hrange', hworking'⟩ := h.publish hrange hpc hstep
    exact ⟨{ call with asked := call.asked ++ [a.header] }, rfl, hrange',
      hworking'⟩
  · exact ⟨call, rfl, h.driver hrange hpatient hstep hret
      fun i hpc => hpublish ⟨i, hpc⟩⟩

/-- With no request behind it the abstract driver takes the one that enters. -/
theorem call_eq (hp : Placed site cfg r) (hidle : a.pc = .idle)
    (buf : Nat → Sector) :
    DiskReader.step cfg a (.call r.lba r.count buf) =
      some ({ a with lba := r.lba, count := r.count, buf := buf }.loop 0) := by
  have hrange := hp.range
  have hcapacity := cfg.capacity_lt
  have hcount := hp.count_lt
  rw [DiskReader.step, if_pos ⟨hidle, by omega, hcount⟩, readSectors,
    if_neg]
  rw [hp.valid]
  simp only [Bool.true_eq_false, false_or]
  omega

/-- The buffer of a request, by sectors. -/
def Request.contents (r : Request) (m : Mem) (i : Nat) : Sector :=
  fun j => m (r.buf + i * kSectorSize + j)

theorem ret_abs {ok : Bool} (h : pc.abs = .ret ok) : pc = .ret ok := by
  cases pc with
  | ret ok' =>
      cases h
      rfl
  | _ => cases h

end Simulation

section Runs

variable {Core : Type} {site : Site} {cfg : Config} {q : Setup}
  {c : Core} {r : Request} {place : Place} {s s' : Shared Core}

theorem run_driver {a a' : State} (h : Run cfg (fun _ => True) a)
    (hstep : driver a = some a') : Run cfg (fun _ => True) a' := by
  have hdriver : DiskReader.step cfg a .driver = some a' := hstep
  exact h.step trivial hdriver

theorem run_device {a a' : State} {move : DiskReader.Move}
    (h : Run cfg (fun _ => True) a)
    (hstep : DiskReader.device cfg a move = some a') :
    Run cfg (fun _ => True) a' := by
  have hdevice : DiskReader.step cfg a (.device move) = some a' := hstep
  exact h.step trivial hdevice

/-- The abstract state while `g_lock` is free. -/
def AtRest (site : Site) (cfg : Config) (s : Shared Core) : Prop :=
  ∃ desc a, Mirrors site desc s a ∧ Run cfg (fun _ => True) a ∧
    a.pc = .idle ∧ (s.timedOut = false → Settled a)

/-- The abstract state next to the call behind `g_lock`. -/
structure Busy (site : Site) (cfg : Config) (c : Core) (r : Request)
    (place : Place) (s : Shared Core) : Prop where
  request : place.request = r
  pending : (c, r) ∈ s.pending
  placed : Placed site cfg r
  works : ∃ desc a, Works site desc r place.pc s a ∧
    Run cfg (fun _ => True) a ∧
    (s.timedOut = false → ∃ call : Call Core,
      call.buf = r.contents place.entry ∧ InRange cfg call a ∧
        Working cfg call a)

def assertions (Core : Type) (site : Site) (cfg : Config) :
    Monitor.Assertions Core Request Bool Place (Shared Core) where
  isFree _ s := AtRest site cfg s
  waits c r s := (c, r) ∈ s.pending ∧ Placed site cfg r
  busy _ c r place s := Busy site cfg c r place s

theorem Busy.enters (h : AtRest site cfg s) (hpending : (c, r) ∈ s.pending)
    (hp : Placed site cfg r) : Busy site cfg c r ⟨r, r.loop 0, s.mem⟩ s := by
  obtain ⟨desc, a, hmirrors, hrun, hidle, hsettled⟩ := h
  let entered : State :=
    { a with lba := r.lba, count := r.count, buf := r.contents s.mem }
  have hmirrors' : Mirrors site desc s entered :=
    ⟨hmirrors.record, hmirrors.devUsed, hmirrors.lastUsed, hmirrors.devAvail,
      hmirrors.inflight, hmirrors.heads, hmirrors.posted⟩
  refine ⟨rfl, hpending, hp, desc, entered.loop 0,
    Works.loop hmirrors' rfl rfl fun _ _ _ _ => rfl,
    hrun.step trivial (call_eq hp hidle _), fun htimed => ?_⟩
  refine ⟨⟨c, r.lba, r.count, r.contents s.mem, [], []⟩, rfl,
    ⟨rfl, rfl, hp.range⟩, ?_⟩
  exact working_loop (s := entered) ⟨rfl, rfl, hp.range⟩ (Nat.zero_le _)
    (fun j => rfl) rfl rfl (hsettled htimed)

theorem Works.device {desc : Fin kQueueSize → Desc} {pc : Pc} {a a' : State}
    {move : DiskReader.Move} (hp : Placed site cfg r)
    (h : Works site desc r pc s a) (hmoved : Moved site desc s s' a')
    (hdevice : DiskReader.device cfg a move = some a')
    (htimed : s'.timedOut = s.timedOut)
    (hcopy : s.timedOut = false → ∀ i k, pc ≠ .copy i k) :
    Works site desc r pc s' a' := by
  obtain ⟨hpc, hlba, hcount, hbuf, -, havail, -⟩ := device_frame hdevice
  refine ⟨hmoved.mirrors, hpc.trans h.place, hlba.trans h.lba,
    hcount.trans h.count, ?_, h.built, h.lt, ?_⟩
  · rw [htimed]
    intro hpatient
    have hview : pc.view a' = pc.view a := by
      cases pc with
      | copy i k => exact absurd rfl (hcopy hpatient i k)
      | _ => exact hbuf
    rw [hview]
    exact hp.buf_kept hmoved.outside h.buf hpatient
  · have hvars := h.vars
    cases pc with
    | publish i idx => exact Eq.trans hvars havail.symm
    | _ => exact hvars

theorem Busy.device {move : DiskReader.Move} (hq : Probe.Live site.dma q)
    (h : Busy site cfg c r place s)
    (hmove : device cfg q s move = some s') : Busy site cfg c r place s' := by
  obtain ⟨hrequest, hpending, hp, desc, a, hworks, hrun, hcall⟩ := h
  obtain ⟨a', hdevice, hmoved⟩ := hworks.mirrors.device hq hmove
  obtain ⟨hpending', htimed'⟩ := device_ghosts hmove
  -- behind its status the device has nothing left to write
  have hcopy : s.timedOut = false → ∀ i k, place.pc ≠ .copy i k := by
    intro htimed i k hpc
    obtain ⟨call, -, -, hworking⟩ := hcall htimed
    rw [Working, hworks.place, hpc] at hworking
    rw [hworking.1.settled.device_eq_none] at hdevice
    cases hdevice
  refine ⟨hrequest, hpending' ▸ hpending, hp, desc, a',
    hworks.device hp hmoved hdevice htimed' hcopy,
    run_device hrun hdevice, fun htimed => ?_⟩
  obtain ⟨call, hbuf, hrange, hworking⟩ := hcall (htimed' ▸ htimed)
  obtain ⟨-, hrange', hworking'⟩ := hworking.device hrange hdevice
  exact ⟨{ call with statuses := call.statuses ++ move.statuses }, hbuf,
    hrange', hworking'⟩

theorem AtRest.device {move : DiskReader.Move} (hq : Probe.Live site.dma q)
    (h : AtRest site cfg s) (hmove : device cfg q s move = some s') :
    AtRest site cfg s' := by
  obtain ⟨desc, a, hmirrors, hrun, hidle, hsettled⟩ := h
  obtain ⟨a', hdevice, hmoved⟩ := hmirrors.device hq hmove
  refine ⟨desc, a', hmoved.mirrors,
    run_device hrun hdevice,
    (device_frame hdevice).1.trans hidle, fun htimed => ?_⟩
  rw [(hsettled ((device_ghosts hmove).2 ▸ htimed)).device_eq_none] at hdevice
  cases hdevice

/-- What other code may write to is no byte of `g_dma` or of a buffer. -/
theorem write_eq {x : Nat} {value : UInt8}
    (h : move site cfg q s (.write x value) = some s') :
    s' = { s with mem := Function.update s.mem x value } ∧
      ¬ (site.dma ≤ x ∧ x < site.dma + kDmaSize) ∧
      ∀ p ∈ s.pending, ¬ p.2.Covers x := by
  rw [move] at h
  split at h
  · cases h
  · next hnot =>
      cases h
      rw [not_or] at hnot
      exact ⟨rfl, hnot.1, fun p hp hcovers => hnot.2 ⟨p, hp, hcovers⟩⟩

theorem Busy.write {x : Nat} {value : UInt8} (h : Busy site cfg c r place s)
    (hmove : move site cfg q s (.write x value) = some s') :
    Busy site cfg c r place s' := by
  obtain ⟨hrequest, hpending, hp, desc, a, hworks, hrun, hcall⟩ := h
  obtain ⟨rfl, hdma, hbuffers⟩ := write_eq hmove
  refine ⟨hrequest, hpending, hp, desc, a, ⟨hworks.mirrors.elsewhere
    (eqOn_update hdma value), hworks.place, hworks.lba, hworks.count, ?_,
    hworks.built, hworks.lt, hworks.vars⟩, hrun, hcall⟩
  intro htimed i hi j
  have hne : r.buf + i * kSectorSize + j ≠ x := by
    rintro rfl
    exact hbuffers _ hpending (hp.covers hi j).1
  exact (Function.update_of_ne hne _ _).trans (hworks.buf htimed i hi j)

theorem AtRest.write {x : Nat} {value : UInt8} (h : AtRest site cfg s)
    (hmove : move site cfg q s (.write x value) = some s') :
    AtRest site cfg s' := by
  obtain ⟨desc, a, hmirrors, hrest⟩ := h
  obtain ⟨rfl, hdma, -⟩ := write_eq hmove
  exact ⟨desc, a, hmirrors.elsewhere (eqOn_update hdma value), hrest⟩

/-- A call that gets past the checks. -/
theorem start_eq (h : start site cfg c r s = some (none, s')) :
    Placed site cfg r ∧ s' = { s with pending := (c, r) :: s.pending } := by
  rw [start] at h
  split at h
  · next hargs =>
      split at h
      · cases h
      · next hrange =>
          cases h
          rw [not_or, not_or] at hrange
          obtain ⟨hvalid, hlba, hcount⟩ := hrange
          exact ⟨⟨eq_true_of_ne_false hvalid, hargs.2.1, hargs.2.2.1,
            hargs.2.2.2, by omega⟩, rfl⟩
  · cases h

theorem start_early {ok : Bool} (h : start site cfg c r s = some (some ok, s')) :
    s' = s := by
  rw [start] at h
  split at h
  · split at h
    · cases h
      rfl
    · cases h
  · cases h

theorem AtRest.with_pending (h : AtRest site cfg s)
    (pending : List (Core × Request)) :
    AtRest site cfg { s with pending := pending } := by
  obtain ⟨desc, a, hmirrors, hrest⟩ := h
  exact ⟨desc, a, hmirrors.with_pending pending, hrest⟩

theorem Busy.cons (h : Busy site cfg c r place s) (p : Core × Request) :
    Busy site cfg c r place { s with pending := p :: s.pending } := by
  obtain ⟨hrequest, hpending, hp, desc, a, hworks, hrun, hcall⟩ := h
  exact ⟨hrequest, List.mem_cons_of_mem p hpending, hp, desc, a,
    ⟨hworks.mirrors.with_pending _, hworks.place, hworks.lba, hworks.count,
      hworks.buf, hworks.built, hworks.lt, hworks.vars⟩, hrun, hcall⟩

variable [DecidableEq Core]

theorem step_goesOn {place' : Place}
    (h : step site c place s = (.inl place', s')) :
    (∀ ok, place.pc ≠ .ret ok) ∧
      place' = { place with pc := (work site place.request s place.pc).1 } ∧
      s' = (work site place.request s place.pc).2 := by
  obtain ⟨r, pc, entry⟩ := place
  cases pc with
  | ret ok => cases h
  | _ =>
      cases h
      exact ⟨by simp, rfl, rfl⟩

theorem step_returns {ok : Bool} (h : step site c place s = (.inr ok, s')) :
    place.pc = .ret ok ∧
      s' = { s with pending := s.pending.filter (·.1 ≠ c) } := by
  obtain ⟨r, pc, entry⟩ := place
  cases pc with
  | ret ok' =>
      cases h
      exact ⟨rfl, rfl⟩
  | _ => cases h

/-- Each access of the call behind the lock. -/
theorem Busy.goesOn {place' : Place} (h : Busy site cfg c r place s)
    (hstep : step site c place s = (.inl place', s')) :
    Busy site cfg c r place' s' ∧ s'.pending = s.pending := by
  obtain ⟨hrequest, hpending, hp, desc, a, hworks, hrun, hcall⟩ := h
  obtain ⟨hret, rfl, rfl⟩ := step_goesOn hstep
  obtain ⟨r', pc, entry⟩ := place
  subst hrequest
  have hpending' : (work site r' s pc).2.pending = s.pending := by
    cases pc with
    | poll i spins =>
        rw [work]
        split
        · split <;> rfl
        · rfl
    | _ => rfl
  obtain ⟨desc', a', hworks', hfollows⟩ := hworks.step hp hret
  refine ⟨⟨rfl, by rwa [hpending'], hp, desc', a', hworks', ?_, fun htimed => ?_⟩,
    hpending'⟩
  · rcases hfollows with rfl | hdriver
    · exact hrun
    · exact run_driver hrun hdriver
  · obtain ⟨htimed, hpatient⟩ := hworks.patient htimed
    obtain ⟨call, hbuf, hrange, hworking⟩ := hcall htimed
    rcases hfollows with rfl | hdriver
    · exact ⟨call, hbuf, hrange, hworking⟩
    · have hret' : ∀ ok, a.pc ≠ .ret ok := by
        intro ok hok
        rw [hworks.place] at hok
        exact hret ok (ret_abs hok)
      obtain ⟨call', hbuf', hgoes⟩ :=
        exists_working hrange hworking hpatient hdriver hret'
      exact ⟨call', hbuf'.trans hbuf, hgoes⟩

theorem Busy.returns {ok : Bool} (h : Busy site cfg c r place s)
    (hstep : step site c place s = (.inr ok, s')) :
    AtRest site cfg s' ∧
      s' = { s with pending := s.pending.filter (·.1 ≠ c) } := by
  obtain ⟨-, -, -, desc, a, hworks, hrun, hcall⟩ := h
  obtain ⟨hret, rfl⟩ := step_returns hstep
  have hplace : a.pc = .ret ok := by
    rw [hworks.place, hret]
    rfl
  have hdriver : driver a = some { a with pc := .idle } := by
    rw [driver, hplace]
  have hm := hworks.mirrors
  refine ⟨⟨desc, { a with pc := .idle }, ⟨hm.record, hm.devUsed, hm.lastUsed,
    hm.devAvail, hm.inflight, hm.heads, hm.posted⟩,
    run_driver hrun hdriver, rfl, fun htimed => ?_⟩, rfl⟩
  obtain ⟨call, -, hrange, hworking⟩ := hcall htimed
  rw [Working, hplace] at hworking
  exact hworking.2.1

theorem assertions_sound (hq : Probe.Live site.dma q) :
    (assertions Core site cfg).Sound (reader Core site cfg q) where
  early log c r s ok s' hstart := by
    obtain rfl := start_early hstart
    exact ⟨id, fun _ _ _ => id, fun _ _ _ _ => id⟩
  begins log c r s s' hstart := by
    obtain ⟨hp, rfl⟩ := start_eq hstart
    refine ⟨⟨fun h => h.with_pending _, ?_, fun c' r' place _ h => h.cons _⟩,
      List.mem_cons_self, hp⟩
    rintro c' r' - ⟨hpending, hp'⟩
    exact ⟨List.mem_cons_of_mem _ hpending, hp'⟩
  enters hfree hwaits := Busy.enters hfree hwaits.1 hwaits.2
  goesOn hbusy hstep := by
    obtain ⟨hbusy', hpending⟩ := Busy.goesOn hbusy hstep
    refine ⟨hbusy', ?_⟩
    rintro c' r' - ⟨hmem, hp⟩
    exact ⟨hpending ▸ hmem, hp⟩
  returns hbusy hstep := by
    obtain ⟨hrest, rfl⟩ := Busy.returns hbusy hstep
    refine ⟨hrest, ?_⟩
    rintro c' r' hne ⟨hmem, hp⟩
    exact ⟨List.mem_filter.mpr ⟨hmem, by simpa using hne⟩, hp⟩
  moves log m s s' hmove := by
    cases m with
    | device m =>
        refine ⟨fun h => AtRest.device hq h hmove, ?_,
          fun _ _ _ _ h => Busy.device hq h hmove⟩
        rintro c r - ⟨hmem, hp⟩
        exact ⟨(device_ghosts hmove).1 ▸ hmem, hp⟩
    | write x value =>
        have hwrite : move site cfg q s (.write x value) = some s' := hmove
        obtain ⟨heq, -⟩ := write_eq hwrite
        refine ⟨fun h => AtRest.write h hwrite, ?_,
          fun _ _ _ _ h => Busy.write h hwrite⟩
        rintro c r - ⟨hmem, hp⟩
        exact ⟨heq ▸ hmem, hp⟩

section

omit [DecidableEq Core]

/-- The buffer of a call that is about to return. -/
theorem Busy.reads_right {ok : Bool} (h : Busy site cfg c r place s)
    (hret : place.pc = .ret ok) (hpatient : s.timedOut = false) :
    (ok = true → ∀ j < r.count, r.contents s.mem j = cfg.disk (r.lba + j)) ∧
    (ok = false → ∃ n < r.count,
      load s.mem (site.dma + kHeaderOffset + 8) 8 = r.lba + n ∧
      load s.mem (site.dma + kStatusOffset) 1 ≠ kBlkSOk ∧
      ∀ j < r.count, r.contents s.mem j =
        if j < n then cfg.disk (r.lba + j) else r.contents place.entry j) := by
  obtain ⟨desc, a, hworks, -, hcall⟩ := h.works
  rw [hret] at hworks
  obtain ⟨call, hentry, hrange, hworking⟩ := hcall hpatient
  rw [Working, hworks.place] at hworking
  obtain ⟨houtcome, -, hfailed⟩ := hworking
  have hlba : call.lba = r.lba := hrange.lba.symm.trans hworks.lba
  have hcount : call.count = r.count := hrange.count.symm.trans hworks.count
  have hcontents {n : Nat} (hcopied : Copied cfg call n a.buf) :
      ∀ j < r.count, r.contents s.mem j =
        if j < n then cfg.disk (r.lba + j) else r.contents place.entry j := by
    intro j hj
    rw [← hlba, ← hentry, ← hcopied j]
    exact funext fun k => hworks.buf hpatient j hj k
  rcases houtcome with
    ⟨rfl, -, hcopied⟩ | ⟨rfl, n, code, hn, -, hstatuses, hcopied⟩
  · refine ⟨fun _ j hj => ?_, fun hfalse => absurd hfalse.symm Bool.false_ne_true⟩
    rw [hcontents hcopied j hj, if_pos (by omega)]
  · obtain ⟨hheader, hstatus⟩ := hfailed rfl
    rw [hstatuses, List.length_append, List.length_replicate,
      List.length_singleton] at hheader
    refine ⟨fun htrue => absurd htrue Bool.false_ne_true,
      fun _ => ⟨n, by omega, ?_, ?_, hcontents hcopied⟩⟩
    · rw [hworks.mirrors.sector]
      omega
    · rw [hworks.mirrors.status]
      exact hstatus

end

/-- `g_dma` before its first use. -/
def Blank (site : Site) (m : Mem) : Prop :=
  ∀ x, site.dma ≤ x → x < site.dma + kDmaSize → m x = 0

section

omit [DecidableEq Core]

theorem load_blank {m : Mem} {lo hi : Nat} (h : ∀ x, lo ≤ x → x < hi → m x = 0)
    {a n : Nat} (ha : lo ≤ a) (hn : a + n ≤ hi) : load m a n = 0 := by
  induction n generalizing a with
  | zero => rfl
  | succ n ih =>
      rw [load, h a ha (by omega), ih (by omega) (by omega)]
      rfl

theorem AtRest.fresh {m : Mem} (h : Blank site m) :
    AtRest site cfg (Shared.fresh m : Shared Core) := by
  have hsize := kDmaSize_eq
  have havail := kAvailOffset_eq
  have hused := kUsedOffset_eq
  have hheader := kHeaderOffset_eq
  have hstatus := kStatusOffset_eq
  have hzero {a n : Nat} (ha : site.dma ≤ a) (hn : a + n ≤ site.dma + kDmaSize) :
      load m a n = 0 := load_blank h ha hn
  refine ⟨fun k => Desc.read m (site.dma + kDescOffset) k,
    initial (fun j => m (site.dma + kDataOffset + j)) fun _ _ => 0,
    ⟨?_, rfl, rfl, rfl, rfl, by simp [Shared.fresh], .inl ⟨rfl, rfl⟩⟩,
    .init _ _, rfl, fun _ => ⟨rfl, rfl, rfl, rfl, Nat.two_pow_pos 16⟩⟩
  refine Record.ext rfl (hzero ?_ ?_) (funext fun k => hzero ?_ ?_)
    (hzero ?_ ?_) (hzero ?_ ?_) (hzero ?_ ?_) (hzero ?_ ?_) rfl
  all_goals first
    | omega
    | (have hk : (k : Nat) < 8 := k.isLt
       omega)

end

variable {m : Mem} {calls : List (Core × Request)}
  {log : List (Monitor.Done Core Request Bool)}
  {st : Monitor.State Core Request Place (Shared Core)}

/-- The queue that the device in slot `i` has been told by the probe. -/
def probed (site : Site) (bus : Bus) (i : Nat) : Setup :=
  (((Probe.initDevice site.dma).run mmio bus).2 i).setup

theorem probed_live {bus : Bus} {i capacity : Nat}
    (h : ((Probe.initDevice site.dma).run mmio bus).1 = (i, some capacity)) :
    Probe.Live site.dma (probed site bus i) := by
  have hfits := site.dma_fits
  rw [kDmaSize_eq] at hfits
  exact Probe.live_initDevice bus i (by omega) h

theorem hold_of_run (hq : Probe.Live site.dma q) (hblank : Blank site m)
    (h : Monitor.Run (reader Core site cfg q) (.fresh m) calls log st) :
    (assertions Core site cfg).Hold log st :=
  (assertions_sound hq).run (.fresh hblank) h

/-- The abstract state next to a state of a run. -/
theorem exists_mirrors (hq : Probe.Live site.dma q) (hblank : Blank site m)
    (h : Monitor.Run (reader Core site cfg q) (.fresh m) calls log st) :
    ∃ desc a, Mirrors site desc st.shared a ∧ Run cfg (fun _ => True) a ∧
      (st.locked = false → a.pc = .idle) ∧
      ∀ c r place, st.callers c = .inside r place → place.request = r ∧
        Placed site cfg r ∧ Works site desc r place.pc st.shared a := by
  have hold := hold_of_run hq hblank h
  cases hlocked : st.locked with
  | false =>
      obtain ⟨⟨desc, a, hmirrors, hrun, hidle, -⟩, hnobody⟩ :=
        hold.isFree hlocked
      exact ⟨desc, a, hmirrors, hrun, fun _ => hidle,
        fun c r place hinside => absurd hinside (hnobody c r place)⟩
  | true =>
      obtain ⟨c, r, place, hinside, hbusy, honly⟩ := hold.busy hlocked
      obtain ⟨desc, a, hworks, hrun, -⟩ := Busy.works hbusy
      refine ⟨desc, a, hworks.mirrors, hrun,
        fun hfree => absurd hfree.symm Bool.false_ne_true, ?_⟩
      intro c' r' place' hinside'
      obtain rfl := honly c' r' place' hinside'
      rw [hinside] at hinside'
      cases hinside'
      exact ⟨Busy.request hbusy, Busy.placed hbusy, hworks⟩

section Main

variable {bus : Bus} {i : Nat}

def sampleSite : Site :=
  ⟨Mmu.sampleImage, 0xffffffff80002000, 0xffffffff80090000, by
    unfold Mmu.Image.Contains
    decide⟩

def sampleDisk : Config :=
  ⟨true, 131072, Probe.sampleCapacity_lt, fun lba _ => UInt8.ofNat lba⟩

theorem sample_probe :
    ((Probe.initDevice sampleSite.dma).run mmio (Probe.sampleBus 3)).1 =
      (3, some sampleDisk.capacity) := by
  decide +kernel

/-- One core asks for a sector while another waits for the lock, and the
device has taken the request. -/
def samplePosts : List (Monitor.Action Bool Request Move) :=
  .call false ⟨5, 1, 0x40200000⟩ :: .call true ⟨7, 2, 0x40201000⟩ ::
    .acquire false :: List.replicate 9 (.step false) ++ [.move (.device .take)]

/-- The device serves it, and the core has copied the sector. -/
def sampleServes : List (Monitor.Action Bool Request Move) :=
  [.move (.device (.readHeader 0)), .move (.device (.writeData 0)),
    .move (.device (.writeStatus 0)), .move (.device (.use 0))] ++
    List.replicate (2 + kSectorSize) (.step false)

/-- The device reports an error instead. -/
def sampleFails : List (Monitor.Action Bool Request Move) :=
  [.move (.device (.readHeader 0)), .move (.device (.writeError 0 1)),
    .move (.device (.use 0)), .step false, .step false]

def SampleRun (st : Monitor.State Bool Request Place (Shared Bool)) : Prop :=
  ∃ calls log, Monitor.Run (reader Bool sampleSite sampleDisk
    (probed sampleSite (Probe.sampleBus 3) 3)) (.fresh fun _ => 0) calls log st

/-- The core at the end of a schedule. -/
theorem exists_sampleRun (actions : List (Monitor.Action Bool Request Move))
    (pc : Pc) (flight : List Phase)
    (h : (Monitor.follow (reader Bool sampleSite sampleDisk
      (probed sampleSite (Probe.sampleBus 3) 3))
      ⟨.fresh fun _ => 0, false, fun _ => .outside⟩ actions).map (fun r =>
        ((r.2.2.callers false).place.map fun p => (p.1, p.2.request, p.2.pc),
          r.2.2.shared.inflight, r.2.2.shared.timedOut)) =
      some (some (⟨5, 1, 0x40200000⟩, ⟨5, 1, 0x40200000⟩, pc), flight,
        false)) :
    ∃ st place, SampleRun st ∧ st.shared.timedOut = false ∧
      st.shared.inflight = flight ∧ place.pc = pc ∧
      st.callers false = .inside ⟨5, 1, 0x40200000⟩ place := by
  obtain ⟨⟨calls, log, st⟩, hfollow, heq⟩ := Option.map_eq_some_iff.mp h
  rw [Prod.mk.injEq, Prod.mk.injEq] at heq
  obtain ⟨hplace, hflight, hpatient⟩ := heq
  obtain ⟨⟨request, place⟩, hinside, hfields⟩ :=
    Option.map_eq_some_iff.mp hplace
  rw [Prod.mk.injEq, Prod.mk.injEq] at hfields
  obtain ⟨rfl, -, hpc⟩ := hfields
  exact ⟨st, place, ⟨calls, log, Monitor.Run.init.follow hfollow⟩, hpatient,
    hflight, hpc, Monitor.Caller.eq_inside hinside⟩

/-- In every run of `read_sectors` behind a probe, on any number of cores and
with a device that goes at its own pace, with polls that give up or without:
the bytes of `g_dma`, the driver and the device are those of a run of the
abstract driver and device, with the call behind `g_lock` at the same place.
As long as no poll has given up so is the buffer of that call, with the bytes
that `memcpy` has copied already. -/
theorem dma_refines
    (hprobe : ((Probe.initDevice site.dma).run mmio bus).1 =
      (i, some cfg.capacity))
    (hblank : Blank site m)
    (h : Monitor.Run (reader Core site cfg (probed site bus i)) (.fresh m) calls
      log st) :
    ∃ desc a, Mirrors site desc st.shared a ∧ Run cfg (fun _ => True) a ∧
      (st.locked = false → a.pc = .idle) ∧
      ∀ c r place, st.callers c = .inside r place → a.pc = place.pc.abs ∧
        a.lba = r.lba ∧ a.count = r.count ∧
        (st.shared.timedOut = false → ∀ j < r.count,
          r.contents st.shared.mem j = place.pc.view a j) := by
  obtain ⟨desc, a, hmirrors, hrun, hfree, hinside⟩ :=
    exists_mirrors (probed_live hprobe) hblank h
  refine ⟨desc, a, hmirrors, hrun, hfree, fun c r place hcaller => ?_⟩
  obtain ⟨-, -, hworks⟩ := hinside c r place hcaller
  exact ⟨hworks.place, hworks.lba, hworks.count,
    fun htimed j hj => funext fun k => hworks.buf htimed j hj k⟩

theorem dma_refines_sample :
    ∃ st, SampleRun st ∧ st.shared.inflight = [.taken 0] ∧
      ∃ desc a, Mirrors sampleSite desc st.shared a ∧
        Run sampleDisk (fun _ => True) a ∧ (st.locked = false → a.pc = .idle) ∧
        ∀ c r place, st.callers c = .inside r place → a.pc = place.pc.abs ∧
          a.lba = r.lba ∧ a.count = r.count ∧
          (st.shared.timedOut = false → ∀ j < r.count,
            r.contents st.shared.mem j = place.pc.view a j) := by
  obtain ⟨st, -, ⟨calls, log, hrun⟩, -, hflight, -⟩ :=
    exists_sampleRun samplePosts (.poll 0 0) [.taken 0] (by decide +kernel)
  exact ⟨st, ⟨calls, log, hrun⟩, hflight,
    dma_refines sample_probe (fun _ _ _ => rfl) hrun⟩

/-- DMA stays where it belongs.  Every request in flight leads the device to
the header, the data and the status byte of `g_dma` and to nothing else, and
whatever step comes next, a byte outside of `g_dma` can only change by a round
of the `memcpy` of the call behind the lock, which writes one byte of that
call's buffer, or by other code that owns it. -/
theorem dma_confined
    (hprobe : ((Probe.initDevice site.dma).run mmio bus).1 =
      (i, some cfg.capacity))
    (hblank : Blank site m)
    (h : Monitor.Run (reader Core site cfg (probed site bus i)) (.fresh m) calls
      log st) :
    (∀ p ∈ st.shared.inflight, chain st.shared.mem (probed site bus i) p.head =
      some (buffers site)) ∧
    ∀ action calls' log' st', Monitor.step
        (reader Core site cfg (probed site bus i)) st action =
        some (calls', log', st') →
      ∀ x, st'.shared.mem x ≠ st.shared.mem x →
        (site.dma ≤ x ∧ x < site.dma + kDmaSize) ∨
        (∃ c r place i k, st.callers c = .inside r place ∧ action = .step c ∧
          place.pc = .copy i k ∧ i < r.count ∧ k < kSectorSize ∧
          x = r.buf + i * kSectorSize + k) ∨
        ∃ value, action = .move (.write x value) := by
  have hq := probed_live hprobe
  obtain ⟨desc, a, hmirrors, -, -, hinside⟩ := exists_mirrors hq hblank h
  refine ⟨fun p hp => ?_, fun action calls' log' st' hstep x hx => ?_⟩
  · obtain ⟨k, hk⟩ := List.mem_iff_getElem?.mp hp
    exact hmirrors.chain_of_flight hq hk
  · cases Monitor.Does.of_step hstep with
    | early outside start =>
        rw [start_early start] at hx
        exact absurd rfl hx
    | begins outside start =>
        rw [(start_eq start).2] at hx
        exact absurd rfl hx
    | enters spins isFree => exact absurd rfl hx
    | @goesOn c r place place' s inside step =>
        obtain ⟨hrequest, hp, hworks⟩ := hinside c r place inside
        obtain ⟨-, -, rfl⟩ := step_goesOn step
        rw [hrequest] at hx
        rcases hworks.changes hp hx with hdma | ⟨i, k, hcopy⟩
        · exact .inl hdma
        · exact .inr (.inl ⟨c, r, place, i, k, inside, rfl, hcopy⟩)
    | returns inside step =>
        obtain ⟨-, rfl⟩ := step_returns step
        exact absurd rfl hx
    | @moves move s moved =>
        cases move with
        | device move =>
            obtain ⟨a', -, hmoved⟩ := hmirrors.device hq moved
            refine .inl ?_
            by_contra hne
            exact hx (hmoved.outside x (by omega))
        | write y value =>
            have hwrite : Dma.move site cfg (probed site bus i) st.shared
              (.write y value) = some s := moved
            obtain ⟨rfl, -⟩ := write_eq hwrite
            by_cases hy : x = y
            · exact .inr (.inr ⟨value, by rw [hy]⟩)
            · exact absurd (Function.update_of_ne hy _ _) hx

theorem dma_confined_sample :
    ∃ st, SampleRun st ∧ st.shared.inflight = [.taken 0] ∧
      (∀ p ∈ st.shared.inflight, chain st.shared.mem
        (probed sampleSite (Probe.sampleBus 3) 3) p.head =
        some (buffers sampleSite)) ∧
      ∀ action calls' log' st', Monitor.step (reader Bool sampleSite sampleDisk
          (probed sampleSite (Probe.sampleBus 3) 3)) st action =
          some (calls', log', st') →
        ∀ x, st'.shared.mem x ≠ st.shared.mem x →
          (sampleSite.dma ≤ x ∧ x < sampleSite.dma + kDmaSize) ∨
          (∃ c r place i k, st.callers c = .inside r place ∧
            action = .step c ∧ place.pc = .copy i k ∧ i < r.count ∧
            k < kSectorSize ∧ x = r.buf + i * kSectorSize + k) ∨
          ∃ value, action = .move (.write x value) := by
  obtain ⟨st, -, ⟨calls, log, hrun⟩, -, hflight, -⟩ :=
    exists_sampleRun samplePosts (.poll 0 0) [.taken 0] (by decide +kernel)
  exact ⟨st, ⟨calls, log, hrun⟩, hflight,
    dma_confined sample_probe (fun _ _ _ => rfl) hrun⟩

/-- A call that is about to return, as long as no poll has given up.  True means
that all its sectors are in the caller's buffer, byte by byte.  False means that
the device has reported an error: the header of `g_dma` names the sector and
the status byte is the error, the sectors before it are in the buffer and the
rest of the buffer is as it was when the call got the lock. -/
theorem dma_reads_right
    (hprobe : ((Probe.initDevice site.dma).run mmio bus).1 =
      (i, some cfg.capacity))
    (hblank : Blank site m)
    (h : Monitor.Run (reader Core site cfg (probed site bus i)) (.fresh m) calls
      log st) (hpatient : st.shared.timedOut = false)
    {c : Core} {r : Request} {ok : Bool}
    (hinside : st.callers c = .inside r place) (hret : place.pc = .ret ok) :
    (ok = true → ∀ j < r.count,
      r.contents st.shared.mem j = cfg.disk (r.lba + j)) ∧
    (ok = false → ∃ n < r.count,
      load st.shared.mem (site.dma + kHeaderOffset + 8) 8 = r.lba + n ∧
      load st.shared.mem (site.dma + kStatusOffset) 1 ≠ kBlkSOk ∧
      ∀ j < r.count, r.contents st.shared.mem j =
        if j < n then cfg.disk (r.lba + j) else r.contents place.entry j) := by
  obtain ⟨-, hbusy, -⟩ := (hold_of_run (probed_live hprobe) hblank h).inside
    hinside
  exact Busy.reads_right hbusy hret hpatient

/-- One run in which the sector arrives, and one in which it does not. -/
theorem dma_reads_right_sample :
    (∃ st, SampleRun st ∧ ∀ j < 1, Request.contents ⟨5, 1, 0x40200000⟩
      st.shared.mem j = sampleDisk.disk (5 + j)) ∧
    ∃ st place, SampleRun st ∧
      st.callers false = .inside ⟨5, 1, 0x40200000⟩ place ∧
      place.pc = .ret false ∧ ∀ j < 1, Request.contents ⟨5, 1, 0x40200000⟩
        st.shared.mem j = Request.contents ⟨5, 1, 0x40200000⟩ place.entry j := by
  constructor
  · obtain ⟨st, place, ⟨calls, log, hrun⟩, hpatient, -, hret, hinside⟩ :=
      exists_sampleRun (samplePosts ++ sampleServes) (.ret true) []
        (by decide +kernel)
    exact ⟨st, ⟨calls, log, hrun⟩, (dma_reads_right sample_probe
      (fun _ _ _ => rfl) hrun hpatient hinside hret).1 rfl⟩
  · obtain ⟨st, place, ⟨calls, log, hrun⟩, hpatient, -, hret, hinside⟩ :=
      exists_sampleRun (samplePosts ++ sampleFails) (.ret false) []
        (by decide +kernel)
    obtain ⟨n, hn, -, -, hcontents⟩ := (dma_reads_right sample_probe
      (fun _ _ _ => rfl) hrun hpatient hinside hret).2 rfl
    refine ⟨st, place, ⟨calls, log, hrun⟩, hinside, hret, fun j hj => ?_⟩
    obtain rfl := Nat.lt_one_iff.mp hn
    exact hcontents j hj

end Main

end Runs

end Dma

end DiskReader

end IntroOs
