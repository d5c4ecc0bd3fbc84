/-
The file system on the driver: any number of cores run programs of their own
that find and read files, each `read_sectors` call of theirs goes through the
lock, the rings and the device, and its answer is what the buffer then holds.
Every program comes to what it would come to alone on the sequential model.
-/
import IntroOs.Fat32Program
import IntroOs.MonitorClients
import IntroOs.VirtioDmaReads

namespace IntroOs

open ByteMem
open Interact (Prog)
open DiskReader (Config kSectorSize)

namespace FileStack

open DiskReader (Site)
open DiskReader.Dma (Request Shared Blank reader probed)

/-- A call is outside of the disk, and fails at once. -/
abbrev OutOfRange (disk : Config) (req : Sectors) : Prop :=
  disk.valid = false ∨ req.lba > disk.capacity ∨
    req.count > disk.capacity - req.lba

/-- What `read_sectors` may come back with. -/
def Delivers (disk : Config) (req : Sectors) : Fetched → Prop
  | none => OutOfRange disk req ∨ 0 < req.count
  | some bytes => ¬ OutOfRange disk req ∧
      bytes = (List.range (req.count * kSectorSize)).map (disk.byte req.lba)

/-- One more outcome in front. -/
def cons (ok : Bool) (io : Outcomes) : Outcomes
  | 0 => ok
  | k + 1 => io k

theorem tail_cons (ok : Bool) (io : Outcomes) : (cons ok io).tail = io := rfl

theorem exists_transfer (count : Nat) (io' : Outcomes) :
    ∃ io, DiskReader.transfer count io = (true, count, io') := by
  induction count with
  | zero => exact ⟨io', rfl⟩
  | succ count ih =>
      obtain ⟨io, hio⟩ := ih
      refine ⟨cons true io, ?_⟩
      rw [DiskReader.transfer, tail_cons, hio]
      rfl

/-- The sequential disk can come back with all of that. -/
theorem exists_outcomes {disk : Config} {req : Sectors} {fetched : Fetched}
    (h : Delivers disk req fetched) (io' : Outcomes) :
    ∃ io, disk.serve req io = (fetched, io') := by
  cases fetched with
  | none =>
      by_cases hrange : OutOfRange disk req
      · refine ⟨io', ?_⟩
        rw [Config.serve, Config.readSectors, if_pos hrange]
      · have hpos : 0 < req.count := h.resolve_left hrange
        obtain ⟨n, hn⟩ := Nat.exists_eq_succ_of_ne_zero hpos.ne'
        refine ⟨cons false io', ?_⟩
        rw [Config.serve, Config.readSectors, if_neg hrange, hn]
        rfl
  | some bytes =>
      obtain ⟨hrange, rfl⟩ := h
      obtain ⟨io, hio⟩ := exists_transfer req.count io'
      refine ⟨io, ?_⟩
      rw [Config.serve, Config.readSectors, if_neg hrange, hio]
      dsimp only
      congr 2
      refine List.map_congr_left fun k hk => ?_
      rw [copy, if_pos (by have := List.mem_range.mp hk; omega), Nat.sub_zero]

section Driver

variable {Core : Type} [DecidableEq Core] {site : Site} {disk : Config}
  {q : DiskReader.Setup} {place : Core → Sectors → Nat}

/-- A core reads into a buffer of its own, which it looks at when the call has
returned true. -/
def interface (place : Core → Sectors → Nat) :
    Monitor.Interface Core Sectors Fetched Request Bool (Shared Core) where
  call c req := ⟨req.lba, req.count, place c req⟩
  answer c req ok s :=
    if ok then
      some ((List.range (req.count * kSectorSize)).map fun k =>
        s.mem (place c req + k))
    else none

section

omit [DecidableEq Core]

/-- The range check of `read_sectors`. -/
theorem early_outOfRange {c : Core} {r : Request} {ok : Bool}
    {s s' : Shared Core}
    (h : DiskReader.Dma.start site disk c r s = some (some ok, s')) :
    ok = false ∧ OutOfRange disk ⟨r.lba, r.count⟩ := by
  rw [DiskReader.Dma.start] at h
  split at h
  · split at h
    · next hrange =>
        cases h
        exact ⟨rfl, hrange⟩
    · cases h
  · cases h

end

/-- The sectors of a buffer, byte by byte. -/
theorem bytes_of_contents {r : Request} {m : Mem}
    (h : ∀ j < r.count, r.contents m j = disk.disk (r.lba + j)) {k : Nat}
    (hk : k < r.count * kSectorSize) :
    m (r.buf + k) = disk.byte r.lba k := by
  have hpos : 0 < kSectorSize := by decide
  have hsector := h (k / kSectorSize) (Nat.div_lt_of_lt_mul (by
    rwa [Nat.mul_comm]))
  have hbyte := congrFun hsector ⟨k % kSectorSize, Nat.mod_lt k hpos⟩
  rw [Request.contents, Nat.add_assoc, Nat.div_add_mod'] at hbyte
  exact hbyte

variable {m : Mem} {calls calls' : List (Core × Request)}
  {log log' : List (Monitor.Done Core Request Bool)}
  {st st' : Monitor.State Core Request DiskReader.Dma.Place (Shared Core)}
  {action : Monitor.Action Core Request DiskReader.Dma.Move}

/-- What a core finds when a call of its own returns. -/
theorem delivers_of_step (hq : DiskReader.Probe.Live site.dma q)
    (hblank : Blank site m)
    (h : Monitor.Run (reader Core site disk q) (.fresh m) calls log st)
    {c : Core} {req : Sectors} {ok : Bool}
    (hstep : Monitor.step (reader Core site disk q) st action =
      some (calls', [⟨c, (interface place).call c req, ok⟩], st'))
    (hpatient : st.shared.timedOut = false) :
    Delivers disk req ((interface place).answer c req ok st'.shared) := by
  generalize hcall : (interface place).call c req = call at hstep
  cases Monitor.Does.of_step hstep with
  | early outside start =>
      obtain ⟨rfl, hrange⟩ := early_outOfRange start
      subst hcall
      exact .inl hrange
  | @returns _ _ at' _ s inside step =>
      obtain ⟨hret, rfl⟩ := DiskReader.Dma.step_returns step
      obtain ⟨-, hbusy, -⟩ := (DiskReader.Dma.hold_of_run hq hblank h).inside
        inside
      have hbusy : DiskReader.Dma.Busy site disk c call at' st.shared := hbusy
      obtain ⟨htrue, hfalse⟩ := hbusy.reads_right hret hpatient
      subst hcall
      cases ok with
      | false =>
          obtain ⟨n, hn, -⟩ := hfalse rfl
          exact .inr (Nat.lt_of_le_of_lt (Nat.zero_le n) hn)
      | true =>
          refine ⟨?_, List.map_congr_left fun k hk => ?_⟩
          · have hrange : req.lba + req.count ≤ disk.capacity :=
              hbusy.placed.range
            rintro (hinvalid | hbeyond)
            · exact absurd (hbusy.placed.valid.symm.trans hinvalid)
                (Bool.noConfusion ·)
            · omega
          · exact bytes_of_contents (htrue rfl) (List.mem_range.mp hk)

/-- No step makes up for a poll that has given up. -/
theorem patient_of_step
    (hstep : Monitor.step (reader Core site disk q) st action =
      some (calls', log', st'))
    (hpatient : st'.shared.timedOut = false) :
    st.shared.timedOut = false := by
  cases Monitor.Does.of_step hstep with
  | early outside start =>
      rwa [DiskReader.Dma.start_early start] at hpatient
  | begins outside start =>
      obtain ⟨-, rfl⟩ := DiskReader.Dma.start_eq start
      exact hpatient
  | enters spins isFree => exact hpatient
  | goesOn inside step =>
      obtain ⟨-, -, rfl⟩ := DiskReader.Dma.step_goesOn step
      exact DiskReader.Dma.work_patient hpatient
  | returns inside step =>
      obtain ⟨-, rfl⟩ := DiskReader.Dma.step_returns step
      exact hpatient
  | @moves move s moved =>
      cases move with
      | device move =>
          obtain ⟨-, htimed⟩ := DiskReader.Dma.device_ghosts moved
          exact htimed.symm.trans hpatient
      | write x value =>
          have hwrite : DiskReader.Dma.move site disk q st.shared
            (.write x value) = some s := moved
          obtain ⟨rfl, -⟩ := DiskReader.Dma.write_eq hwrite
          exact hpatient

/-- Programs over the disk, run on the driver, come to what they come to on
the sequential disk with some outcomes of its reads. -/
theorem clients_reach {α : Type} {progs : Core → DiskProg α}
    {cl : Monitor.Clients Core Sectors Fetched α Request DiskReader.Dma.Place
      (Shared Core)} (hq : DiskReader.Probe.Live site.dma q)
    (hblank : Blank site m)
    (h : Monitor.Clients.Run (reader Core site disk q) (interface place)
      (.fresh m) progs cl)
    (hpatient : cl.object.shared.timedOut = false) (c : Core)
    (io' : Outcomes) :
    ∃ io, (progs c).run disk.serve io = (cl.progs c).run disk.serve io' := by
  have hreach := h.reaches (Delivers disk) (·.timedOut = false)
    patient_of_step
    (fun hrun hstep hgood => delivers_of_step hq hblank hrun hstep hgood)
    hpatient c
  exact hreach.run (fun req fetched hdelivers io' =>
    exists_outcomes hdelivers io') io'

end Driver

/-- What a client of the file system asks for: a new mount, a file by its
path, or bytes of a file. -/
inductive Op where
  | mount
  | find (path : Option CString)
  | read (f : File) (offset : Nat) (out : Mem) (len : Nat)

/-- What it gets: the metadata, a handle, or the value of `read` with the
handle and, when it is not negative, the buffer. -/
inductive Reply where
  | volume (metadata : Option Fat32Metadata)
  | file (f : File)
  | data (value : Int) (f : File) (out : Option Mem)

/-- Handles are those of the volume. -/
def on (v : Fat32) (f : File) : File := { f with fs := f.fs.map fun _ => v }

/-- The file system on the driver. -/
def perform (v : Fat32) : Op → DiskProg Reply
  | .mount => do
      let metadata ← Program.mount v.disk
      pure (.volume metadata)
  | .find path => do
      let f ← Program.find v path
      pure (.file (f.getD File.invalid))
  | .read f offset out len => do
      match ← Program.read (on v f) offset out len with
      | some (.inr l) => pure (.data l.done l.file (some l.out))
      | some (.inl f) => pure (.data (-1) f none)
      | none => pure (.data (-1) f none)

/-- The sequential file system. -/
def serve (v : Fat32) : Op → Outcomes → Reply × Outcomes
  | .mount, io => (.volume (Fat32.mount v.disk io).1, (Fat32.mount v.disk io).2)
  | .find path, io =>
      match v.find path io with
      | some (f, io) => (.file f, io)
      | none => (.file File.invalid, io)
  | .read f offset out len, io =>
      match (on v f).read offset out len io with
      | some (value, r) =>
          (.data value r.file (if 0 ≤ value then some r.out else none), r.io)
      | none => (.data (-1) f none, io)

theorem on_fs (v : Fat32) (f : File) :
    ∀ w, (on v f).fs = some w → w = v := by
  intro w hw
  obtain ⟨w', -, rfl⟩ := Option.map_eq_some_iff.mp hw
  rfl

theorem run_perform (v : Fat32) (op : Op) (io : Outcomes) :
    (perform v op).run v.disk.serve io = serve v op io := by
  cases op with
  | mount =>
      simp only [perform, Prog.run_bind, Program.run_mount]
      rfl
  | find path =>
      obtain ⟨f, io', hfind, hrun⟩ := Program.run_find v path io
      simp only [perform, serve, Prog.run_bind, hfind, hrun]
      rfl
  | read f offset out len =>
      obtain ⟨value, r, hread, hrun, hvalue⟩ :=
        Program.run_read (on_fs v f) offset out len io
      simp only [perform, serve, Prog.run_bind, hread, hrun]
      rcases hvalue with rfl | rfl
      · rfl
      · rw [Program.ended, decide_eq_true (Int.natCast_nonneg _),
          if_pos (Int.natCast_nonneg _)]
        rfl

section Main

variable {Core : Type} [DecidableEq Core] {site : Site} {v : Fat32}
  {place : Core → Sectors → Nat} {m : Mem} {bus : DiskReader.Bus} {i : Nat}

/-- A program that has come to its end, on the sequential file system. -/
theorem run_serve_of_done {q : DiskReader.Setup} {α : Type}
    {clients : Core → Prog Op Reply α}
    {cl : Monitor.Clients Core Sectors Fetched α Request DiskReader.Dma.Place
      (Shared Core)} (hq : DiskReader.Probe.Live site.dma q)
    (hblank : Blank site m)
    (h : Monitor.Clients.Run (reader Core site v.disk q) (interface place)
      (.fresh m) (fun c => (clients c).lower (perform v)) cl)
    (hpatient : cl.object.shared.timedOut = false) {c : Core} {a : α}
    (hdone : cl.progs c = .ret a) :
    ∃ io, (clients c).run (serve v) io = (a, allOk) := by
  obtain ⟨io, hrun⟩ := clients_reach hq hblank h hpatient c allOk
  have hserve : (fun op io => (perform v op).run v.disk.serve io) = serve v :=
    funext fun op => funext fun io => run_perform v op io
  rw [hdone, Prog.run_lower, hserve] at hrun
  exact ⟨io, hrun⟩

/-- Read some bytes of the file with a given path. -/
def cat (path : Option CString) (offset : Nat) (out : Mem) (len : Nat) :
    Prog Op Reply Reply := do
  match ← Prog.request (.find path) with
  | .file f => Prog.request (.read f offset out len)
  | reply => pure reply

/-- The sequential file system reads the bytes of the file, or fails. -/
theorem run_cat {path : Option CString} {offset len : Nat} {out : Mem}
    {io io' : Outcomes} {a : Reply}
    (h : (cat path offset out len).run (serve v) io = (a, io')) :
    ∃ value f' out', a = .data value f' out' ∧ (value ≠ -1 →
      ∃ f bytes, v.find path allOk = some (f, allOk) ∧ f.dir = false ∧
        out' = some bytes ∧ value = f.readLen offset len ∧
        ∀ k < f.readLen offset len,
          Fat32.fileByte v f.firstCluster (offset + k) = some (bytes k)) := by
  obtain ⟨f, io₁, hfind, -⟩ := Program.run_find v path io
  obtain ⟨value, r, hread, -, hvalue⟩ :=
    Program.run_read (on_fs v f) offset out len io₁
  simp only [cat, Prog.run_bind, Prog.run_request, serve, hfind, hread] at h
  cases h
  refine ⟨value, r.file, _, rfl, fun hne => ?_⟩
  have hnonneg : 0 ≤ value := by
    rcases hvalue with rfl | rfl
    · exact absurd rfl hne
    · exact Int.natCast_nonneg _
  have hvalid : f.valid = true := by
    by_contra hinvalid
    rw [Fat32.find_invalid hfind (by simpa using hinvalid)] at hread
    cases hread
    exact hne rfl
  obtain ⟨entry, rfl, hfound⟩ := Fat32.find_valid hfind hvalid
  have hdir : (Fat32.fileOf v entry).dir = false := by
    by_contra hdir
    have hfails : (on v (Fat32.fileOf v entry)).read offset out len io₁ =
        some (-1, ⟨on v (Fat32.fileOf v entry), out, 0, io₁⟩) :=
      if_pos (Bool.eq_true_of_not_eq_false hdir)
    rw [hfails] at hread
    cases hread
    exact hne rfl
  obtain ⟨hlen, hbytes, -⟩ := File.read_succeeds rfl hdir
    (File.cacheOk_fileOf entry) hread hne
  exact ⟨_, r.out, hfound, hdir, if_pos hnonneg, hlen, hbytes⟩

/-- The disk of the sample volume in slot 3. -/
def sampleBus : DiskReader.Bus := fun j =>
  if j = 3 then
    ⟨⟨DiskReader.kMagicValue, 2, DiskReader.kDeviceIdBlock, (0x10, 1),
      fun f => f == (0, 1), 1024, Fat32.sample.disk.capacity,
      Fat32.sample.disk.capacity_lt⟩, .reset⟩
  else DiskReader.Probe.sampleBus 3 j

theorem sample_probe :
    ((DiskReader.Probe.initDevice DiskReader.Dma.sampleSite.dma).run
      DiskReader.mmio sampleBus).1 = (3, some Fat32.sample.disk.capacity) := by
  decide +kernel

def samplePlace (c : Bool) (_ : Sectors) : Nat :=
  if c then 0x40201000 else 0x40200000

/-- The last twelve bytes of the first cluster of the file. -/
def sampleCat : Prog Op Reply Reply :=
  cat (some Fat32.notesPath) 500 (fun _ => 0) 12

def SampleRun (cl : Monitor.Clients Bool Sectors Fetched Reply Request
    DiskReader.Dma.Place (Shared Bool)) : Prop :=
  Monitor.Clients.Run (reader Bool DiskReader.Dma.sampleSite Fat32.sample.disk
    (probed DiskReader.Dma.sampleSite sampleBus 3)) (interface samplePlace)
    (.fresh fun _ => 0) (fun _ => sampleCat.lower (perform Fat32.sample)) cl

/-- A request of the first core that is served. -/
def sampleServed : List (Monitor.ClientAction Bool DiskReader.Dma.Move) :=
  .request false :: .acquire false :: List.replicate 9 (.step false) ++
    [.move (.device .take), .move (.device (.readHeader 0)),
      .move (.device (.writeData 0)), .move (.device (.writeStatus 0)),
      .move (.device (.use 0))] ++
    List.replicate (3 + kSectorSize) (.step false)

/-- The value and the bytes that a program has come to. -/
def told : Prog Sectors Fetched Reply → Option (Int × List UInt8)
  | .ret (.data value _ (some out)) => some (value, (List.range 12).map out)
  | _ => none

theorem eq_ret_of_told {p : Prog Sectors Fetched Reply} {value : Int}
    {bytes : List UInt8} (h : told p = some (value, bytes)) :
    ∃ f out, p = .ret (.data value f (some out)) := by
  rw [told.eq_def] at h
  split at h
  · cases h
    exact ⟨_, _, rfl⟩
  · cases h

/-- Both cores read the file.  The second one waits for the lock while the
first one is served twice, for the directory and for the file. -/
theorem exists_sampleRun : ∃ cl f out, SampleRun cl ∧
    cl.object.shared.timedOut = false ∧
    cl.progs false = .ret (.data 12 f (some out)) := by
  have hfollow : (Monitor.Clients.follow (reader Bool
      DiskReader.Dma.sampleSite Fat32.sample.disk
      (probed DiskReader.Dma.sampleSite sampleBus 3)) (interface samplePlace)
      ⟨⟨.fresh fun _ => 0, false, fun _ => .outside⟩,
        fun _ => sampleCat.lower (perform Fat32.sample)⟩
      (.request true :: sampleServed ++ sampleServed)).map (fun cl =>
        (cl.object.shared.timedOut, told (cl.progs false))) =
      some (false, some (12, List.replicate 12 0x61)) := by
    decide +kernel
  obtain ⟨cl, hcl, heq⟩ := Option.map_eq_some_iff.mp hfollow
  obtain ⟨hpatient, htold⟩ := Prod.mk.inj heq
  obtain ⟨f, out, hdone⟩ := eq_ret_of_told htold
  exact ⟨cl, f, out, Monitor.Clients.Run.init.follow hcl, hpatient, hdone⟩

/-- Any number of cores run programs that mount, find and read, on the driver
and the device as they are in memory.  Whatever the others do and however the
device and the lock order it all, and as long as no poll has given up, a
program that has come to its end has the result that it has alone on the
sequential file system, where some reads of the disk fail and the others bring
the bytes of the disk. -/
theorem files_isolated {α : Type} {clients : Core → Prog Op Reply α}
    {cl : Monitor.Clients Core Sectors Fetched α Request DiskReader.Dma.Place
      (Shared Core)}
    (hprobe : ((DiskReader.Probe.initDevice site.dma).run DiskReader.mmio
      bus).1 = (i, some v.disk.capacity)) (hblank : Blank site m)
    (h : Monitor.Clients.Run (reader Core site v.disk (probed site bus i))
      (interface place) (.fresh m) (fun c => (clients c).lower (perform v)) cl)
    (hpatient : cl.object.shared.timedOut = false) {c : Core} {a : α}
    (hdone : cl.progs c = .ret a) :
    ∃ io io', (clients c).run (serve v) io = (a, io') := by
  obtain ⟨io, hrun⟩ := run_serve_of_done (DiskReader.Dma.probed_live hprobe)
    hblank h hpatient hdone
  exact ⟨io, allOk, hrun⟩

theorem files_isolated_sample :
    ∃ cl f out, SampleRun cl ∧ cl.progs false = .ret (.data 12 f (some out)) ∧
      ∃ io io', sampleCat.run (serve Fat32.sample) io =
        (.data 12 f (some out), io') := by
  obtain ⟨cl, f, out, hrun, hpatient, hdone⟩ := exists_sampleRun
  exact ⟨cl, f, out, hrun, hdone,
    files_isolated sample_probe (fun _ _ _ => rfl) hrun hpatient hdone⟩

/-- End to end: a client that finds a file and reads from it, next to any other
clients of the file system, is told that it failed or has exactly the bytes
that the disk holds for the file. -/
theorem cat_exact {clients : Core → Prog Op Reply Reply}
    {cl : Monitor.Clients Core Sectors Fetched Reply Request
      DiskReader.Dma.Place (Shared Core)}
    (hprobe : ((DiskReader.Probe.initDevice site.dma).run DiskReader.mmio
      bus).1 = (i, some v.disk.capacity)) (hblank : Blank site m)
    (h : Monitor.Clients.Run (reader Core site v.disk (probed site bus i))
      (interface place) (.fresh m) (fun c => (clients c).lower (perform v)) cl)
    (hpatient : cl.object.shared.timedOut = false) {c : Core}
    {path : Option CString} {offset len : Nat} {out : Mem} {a : Reply}
    (hclient : clients c = cat path offset out len)
    (hdone : cl.progs c = .ret a) :
    ∃ value f' out', a = .data value f' out' ∧ (value ≠ -1 →
      ∃ f bytes, v.find path allOk = some (f, allOk) ∧ f.dir = false ∧
        out' = some bytes ∧ value = f.readLen offset len ∧
        ∀ k < f.readLen offset len,
          Fat32.fileByte v f.firstCluster (offset + k) = some (bytes k)) := by
  obtain ⟨io, hrun⟩ := run_serve_of_done (DiskReader.Dma.probed_live hprobe)
    hblank h hpatient hdone
  rw [hclient] at hrun
  exact run_cat hrun

theorem cat_exact_sample :
    ∃ cl f out, SampleRun cl ∧ cl.progs false = .ret (.data 12 f (some out)) ∧
      ∃ f' bytes, Fat32.sample.find (some Fat32.notesPath) allOk =
          some (f', allOk) ∧ f'.dir = false ∧ some out = some bytes ∧
        12 = (f'.readLen 500 12 : Int) ∧ ∀ k < f'.readLen 500 12,
          Fat32.fileByte Fat32.sample f'.firstCluster (500 + k) =
            some (bytes k) := by
  obtain ⟨cl, f, out, hrun, hpatient, hdone⟩ := exists_sampleRun
  obtain ⟨value, f', out', heq, hexact⟩ := cat_exact sample_probe
    (fun _ _ _ => rfl) hrun hpatient rfl hdone
  cases heq
  exact ⟨cl, f, out, hrun, hdone, hexact (by decide)⟩

end Main

end FileStack

end IntroOs
