/-
The virtqueue indices in runs of `read_sectors` from any number of cores.  As
long as no poll gives up, the three free-running 16-bit counters agree
whenever `g_lock` is free, and every call does what its caller was promised.
-/
import IntroOs.History
import IntroOs.VirtioReads

namespace IntroOs

namespace DiskReader

/-- A core, seen from `read_sectors`: not in it, spinning on `g_lock` after
the range check, or behind it. -/
inductive Caller where
  | outside
  | spin (lba count : Nat) (buf : Nat → Sector)
  | inside

structure System (Core : Type) where
  shared : State
  holder : Option Core
  callers : Core → Caller

/-- What happens in a run: a call fails the range check, or enters the section
of `g_lock`, asks the device for a sector, is told a status, and returns. -/
inductive Event (Core : Type) where
  | refuse (c : Core) (lba count : Nat)
  | enter (c : Core) (lba count : Nat) (buf : Nat → Sector)
  | request (lba : Nat)
  | report (code : Nat)
  | returns (c : Core) (ok : Bool) (buf : Nat → Sector)

inductive SystemAction (Core : Type) where
  | call (c : Core) (lba count : Nat) (buf : Nat → Sector)
  | acquire (c : Core)
  | driver
  | device (move : Move)

variable {Core : Type} [DecidableEq Core]

def requests (s : State) : List (Event Core) :=
  match s.pc with
  | .publish _ => [.request s.header]
  | _ => []

def reports : Move → List (Event Core)
  | .writeStatus _ => [.report kBlkSOk]
  | .writeError _ code => [.report code]
  | _ => []

def systemStep (cfg : Config) (sys : System Core) :
    SystemAction Core → Option (List (Event Core) × System Core)
  | .call c lba count buf =>
      match sys.callers c with
      | .outside =>
          if lba < 2 ^ 64 ∧ count < 2 ^ 32 then
            if cfg.valid = false ∨ lba > cfg.capacity ∨
                count > cfg.capacity - lba then
              some ([.refuse c lba count], sys)
            else
              some ([], { sys with
                callers := Function.update sys.callers c (.spin lba count buf) })
          else none
      | _ => none
  | .acquire c =>
      match sys.callers c, sys.holder with
      | .spin lba count buf, none =>
          let entered := { sys.shared with lba := lba, count := count, buf := buf }
          some ([.enter c lba count buf],
            ⟨entered.loop 0, some c, Function.update sys.callers c .inside⟩)
      | _, _ => none
  | .driver =>
      match sys.holder with
      | none => none
      | some c =>
          (driver sys.shared).map fun s =>
            match sys.shared.pc with
            | .ret ok =>
                ([.returns c ok sys.shared.buf],
                  ⟨s, none, Function.update sys.callers c .outside⟩)
            | _ => (requests sys.shared, { sys with shared := s })
  | .device move =>
      (device cfg sys.shared move).map fun s =>
        (reports move, { sys with shared := s })

/-- The next step of the driver would give up on its request. -/
def TimesOut (s : State) : Prop :=
  match s.pc with
  | .poll _ spins => s.usedIdx = s.lastUsed ∧ spins + 1 > kPollLimit
  | _ => False

instance (s : State) : Decidable (TimesOut s) := by
  unfold TimesOut
  split <;> infer_instance

/-- The runs in which no poll gives up. -/
inductive PatientRun (cfg : Config) :
    List (Event Core) → System Core → Prop
  | init (data : Sector) (buf : Nat → Sector) :
      PatientRun cfg [] ⟨initial data buf, none, fun _ => .outside⟩
  | step {past events : List (Event Core)} {sys sys' : System Core}
      {action : SystemAction Core} (before : PatientRun cfg past sys)
      (patient : action = .driver → ¬ TimesOut sys.shared)
      (step : systemStep cfg sys action = some (events, sys')) :
      PatientRun cfg (past ++ events) sys'

/-- The call that holds the lock, the sectors it has asked for and the
statuses the device has reported to it. -/
structure Call (Core : Type) where
  core : Core
  lba : Nat
  count : Nat
  buf : Nat → Sector
  asked : List Nat
  statuses : List Nat

def nextCall : Option (Call Core) → Event Core → Option (Call Core)
  | _, .enter c lba count buf => some ⟨c, lba, count, buf, [], []⟩
  | _, .returns _ _ _ => none
  | call, .request lba =>
      call.map fun call => { call with asked := call.asked ++ [lba] }
  | call, .report code =>
      call.map fun call => { call with statuses := call.statuses ++ [code] }
  | call, .refuse _ _ _ => call

def current (past : List (Event Core)) : Option (Call Core) :=
  past.foldl nextCall none

/-- The first `n` sectors are copied and the rest of the buffer is as it
was. -/
def Copied (cfg : Config) (call : Call Core) (n : Nat)
    (buf : Nat → Sector) : Prop :=
  ∀ j, buf j = if j < n then cfg.disk (call.lba + j) else call.buf j

/-- What a call that has entered returns: true, with all its sectors, when the
device has reported OK for each of them; false, with those before the first
one that failed, otherwise. -/
def Outcome (cfg : Config) (call : Call Core) (ok : Bool)
    (buf : Nat → Sector) : Prop :=
  (ok = true ∧ call.statuses = List.replicate call.count kBlkSOk ∧
    Copied cfg call call.count buf) ∨
  (ok = false ∧ ∃ i code, i < call.count ∧ code ≠ kBlkSOk ∧
    call.statuses = List.replicate i kBlkSOk ++ [code] ∧
    Copied cfg call i buf)

/-- Calls are refused exactly when they reach past the capacity; requests are
for the sectors of the call, in order, below the capacity, each after the
status of the one before and answered by one status. -/
def Law (cfg : Config) (past : List (Event Core)) : Event Core → Prop
  | .refuse _ lba count => cfg.capacity < lba + count
  | .enter _ lba count _ =>
      lba + count ≤ cfg.capacity ∧ current past = none
  | .request lba => lba < cfg.capacity ∧ ∃ call, current past = some call ∧
      call.asked.length < call.count ∧ lba = call.lba + call.asked.length ∧
      call.statuses = List.replicate call.asked.length kBlkSOk
  | .report _ => ∃ call, current past = some call ∧
      call.asked.length = call.statuses.length + 1
  | .returns c ok buf => ∃ call, current past = some call ∧ call.core = c ∧
      Outcome cfg call ok buf

/-- Both parties are done with each other: `n` is the 16-bit value of the
indices. -/
structure Agree (n avail used dev : Nat) (flight : List Phase) : Prop where
  avail : avail = n
  used : used = n
  dev : dev = n
  flight : flight = []
  lt : n < 2 ^ 16

def Settled (s : State) : Prop :=
  Agree s.lastUsed s.availIdx s.usedIdx s.devAvail s.inflight

theorem Settled.idle {s : State} (h : Settled s) : DeviceIdle s :=
  ⟨h.flight, h.dev.trans h.avail.symm⟩

/-- The one outstanding request, for sector `lba`, when `last` requests have
been completed, with what was reported for it. -/
structure Outstanding (cfg : Config) (lba last : Nat) (s : State)
    (report : List Nat) (done : Bool) : Prop where
  served : Served cfg lba s.status s.data s.availIdx s.devAvail s.inflight
    report done
  avail : s.availIdx = inc16 last
  used : s.usedIdx = if done then inc16 last else last

/-- The call is at sector `i`, which it has not asked for. -/
structure Before (cfg : Config) (call : Call Core) (s : State) (i : Nat) :
    Prop where
  lt : i < call.count
  copied : Copied cfg call i s.buf
  asked : call.asked.length = i
  statuses : call.statuses = List.replicate i kBlkSOk
  settled : Settled s

/-- The call waits for sector `i`. -/
structure During (cfg : Config) (call : Call Core) (s : State) (i : Nat) :
    Prop where
  lt : i < call.count
  copied : Copied cfg call i s.buf
  asked : call.asked.length = i + 1
  header : s.header = call.lba + i
  last_lt : s.lastUsed < 2 ^ 16
  reported : ∃ report done,
    call.statuses = List.replicate i kBlkSOk ++ report ∧
    Outstanding cfg (call.lba + i) s.lastUsed s report done

/-- The device is done with sector `i`. -/
structure After (cfg : Config) (call : Call Core) (s : State) (i : Nat) :
    Prop where
  lt : i < call.count
  copied : Copied cfg call i s.buf
  asked : call.asked.length = i + 1
  header : s.header = call.lba + i
  statuses : call.statuses = List.replicate i kBlkSOk ++ [s.status]
  right : s.status = kBlkSOk → s.data = cfg.disk (call.lba + i)
  settled : Settled s

/-- The last sector asked for is the one that failed, and the header and the
status byte are still those of its request. -/
def Failed (call : Call Core) (s : State) : Prop :=
  s.header + 1 = call.lba + call.statuses.length ∧ s.status ≠ kBlkSOk

/-- The section of `g_lock`, place by place. -/
def Working (cfg : Config) (call : Call Core) (s : State) : Prop :=
  match s.pc with
  | .idle => False
  | .setHeader i => Before cfg call s i
  | .setStatus i => Before cfg call s i ∧ s.header = call.lba + i
  | .setRing i | .publish i =>
      Before cfg call s i ∧ s.header = call.lba + i ∧
        s.status = kStatusPending
  | .notify i | .poll i _ => During cfg call s i
  | .check i => After cfg call s i
  | .copy i => After cfg call s i ∧ s.status = kBlkSOk
  | .ret ok =>
      Outcome cfg call ok s.buf ∧ Settled s ∧ (ok = false → Failed call s)

/-- The call and the variables of `read_sectors` are about the same sectors,
which exist. -/
structure InRange (cfg : Config) (call : Call Core) (s : State) : Prop where
  lba : s.lba = call.lba
  count : s.count = call.count
  le : call.lba + call.count ≤ cfg.capacity

structure SystemInv (cfg : Config) (past : List (Event Core))
    (sys : System Core) : Prop where
  lock_free : sys.holder = none →
    sys.shared.pc = .idle ∧ current past = none ∧ Settled sys.shared
  held : ∀ c, sys.holder = some c → ∃ call, current past = some call ∧
    call.core = c ∧ InRange cfg call sys.shared ∧
    Working cfg call sys.shared
  spins : ∀ c lba count buf, sys.callers c = .spin lba count buf →
    lba + count ≤ cfg.capacity
  law : History.Along (Law cfg) past

variable {cfg : Config} {past : List (Event Core)} {sys sys' : System Core}
  {call : Call Core} {s t : State}

theorem inc16_lt (n : Nat) : inc16 n < 2 ^ 16 := Nat.mod_lt _ (by decide)

/-- Without a request the device has nothing to do. -/
theorem Settled.device_eq_none (h : Settled s) (move : Move) :
    device cfg s move = none :=
  device_of_idle cfg h.idle move

/-- The device carries the outstanding request one phase further. -/
theorem Outstanding.device {last : Nat} {move : Move} {report : List Nat}
    {done : Bool} (hstep : DiskReader.device cfg s move = some t)
    (h : Outstanding cfg s.header last s report done) :
    (move.statuses = [] ∨ report = []) ∧ ∃ done',
      Outstanding cfg s.header last t (report ++ move.statuses) done' := by
  obtain ⟨hserved, havail, hused⟩ := h
  obtain ⟨rfl, hone, done', hserved', hused'⟩ := hserved.device hstep
  obtain ⟨-, -, -, -, -, havail', -⟩ := device_frame hstep
  refine ⟨hone, done', hserved', havail'.trans havail, ?_⟩
  rw [hused', hused, if_neg Bool.false_ne_true]

/-- The indices tell that the request is done. -/
theorem Outstanding.done {lba : Nat} {report : List Nat} {done : Bool}
    (h : Outstanding cfg lba s.lastUsed s report done)
    (hne : s.usedIdx ≠ s.lastUsed) :
    Agree (inc16 s.lastUsed) s.availIdx s.usedIdx s.devAvail s.inflight ∧
      report = [s.status] ∧ (s.status = kBlkSOk → s.data = cfg.disk lba) := by
  rcases s with ⟨header, status, data, ring, availIdx, usedIdx, lastUsed, pc,
    lba, count, buf, devAvail, inflight⟩
  obtain ⟨hserved, havail, hused⟩ := h
  simp only at hserved havail hused hne
  cases hserved with
  | used hright =>
      exact ⟨⟨havail, hused, havail, rfl, inc16_lt lastUsed⟩, rfl, hright⟩
  | _ => exact absurd hused hne

section

omit [DecidableEq Core]

theorem current_concat (past : List (Event Core)) (e : Event Core) :
    current (past ++ [e]) = nextCall (current past) e := by
  simp [current]

/-- The loop head, with `i` sectors copied. -/
theorem working_loop {i : Nat} (hrange : InRange cfg call s)
    (hle : i ≤ call.count) (hcopied : Copied cfg call i s.buf)
    (hasked : call.asked.length = i)
    (hstatuses : call.statuses = List.replicate i kBlkSOk)
    (hsettled : Settled s) : Working cfg call (s.loop i) := by
  unfold State.loop
  rw [hrange.count]
  by_cases hlt : i < call.count
  · rw [if_pos hlt]
    exact ⟨hlt, hcopied, hasked, hstatuses, hsettled⟩
  · rw [if_neg hlt]
    have heq : i = call.count := by omega
    subst heq
    exact ⟨.inl ⟨rfl, hstatuses, hcopied⟩, hsettled,
      fun hfalse => absurd hfalse.symm Bool.false_ne_true⟩

theorem During.with_pc {i : Nat} (h : During cfg call s i) (pc : Pc) :
    During cfg call { s with pc := pc } i := by
  obtain ⟨hlt, hcopied, hasked, hheader, hlast, report, done, hstatuses,
    hserved, havail, hused⟩ := h
  exact ⟨hlt, hcopied, hasked, hheader, hlast, report, done, hstatuses,
    hserved, havail, hused⟩

/-- One step of the section, the publication and the return apart. -/
theorem Working.driver (hrange : InRange cfg call s) (h : Working cfg call s)
    (hpatient : ¬ TimesOut s) (hstep : DiskReader.driver s = some t)
    (hret : ∀ ok, s.pc ≠ .ret ok) (hpublish : ∀ i, s.pc ≠ .publish i) :
    InRange cfg call t ∧ Working cfg call t := by
  obtain ⟨hlba, hcount, hle⟩ := hrange
  unfold Working at h
  unfold DiskReader.driver at hstep
  split at hstep
  · cases hstep
  · next i hpc =>
      simp only [hpc] at h
      obtain ⟨hlt, hcopied, hasked, hstatuses, hsettled⟩ := h
      cases hstep
      exact ⟨⟨hlba, hcount, hle⟩,
        ⟨hlt, hcopied, hasked, hstatuses, hsettled⟩, by rw [hlba]⟩
  · next i hpc =>
      simp only [hpc] at h
      obtain ⟨⟨hlt, hcopied, hasked, hstatuses, hsettled⟩, hheader⟩ := h
      cases hstep
      exact ⟨⟨hlba, hcount, hle⟩,
        ⟨hlt, hcopied, hasked, hstatuses, hsettled⟩, hheader, rfl⟩
  · next i hpc =>
      simp only [hpc] at h
      obtain ⟨⟨hlt, hcopied, hasked, hstatuses, hsettled⟩, hrequest⟩ := h
      cases hstep
      exact ⟨⟨hlba, hcount, hle⟩,
        ⟨hlt, hcopied, hasked, hstatuses, hsettled⟩, hrequest⟩
  · next i hpc => exact absurd hpc (hpublish i)
  · next i hpc =>
      simp only [hpc] at h
      cases hstep
      exact ⟨⟨hlba, hcount, hle⟩, h.with_pc _⟩
  · next i spins hpc =>
      simp only [hpc] at h
      split at hstep
      · next hwait =>
          split at hstep
          · next hlimit =>
              simp only [TimesOut, hpc] at hpatient
              exact absurd ⟨hwait, hlimit⟩ hpatient
          · cases hstep
            exact ⟨⟨hlba, hcount, hle⟩, h.with_pc _⟩
      · next hne =>
          cases hstep
          obtain ⟨hlt, hcopied, hasked, hheader, hlast, report, done, hstatuses,
            hout⟩ := h
          obtain ⟨hagree, hreport, hright⟩ := hout.done hne
          exact ⟨⟨hlba, hcount, hle⟩, hlt, hcopied, hasked, hheader,
            hreport ▸ hstatuses, hright, hagree⟩
  · next i hpc =>
      simp only [hpc] at h
      obtain ⟨hlt, hcopied, hasked, hheader, hstatuses, hright, hsettled⟩ := h
      split at hstep
      · next hok =>
          cases hstep
          exact ⟨⟨hlba, hcount, hle⟩,
            ⟨hlt, hcopied, hasked, hheader, hstatuses, hright, hsettled⟩, hok⟩
      · next hbad =>
          cases hstep
          refine ⟨⟨hlba, hcount, hle⟩,
            .inr ⟨rfl, i, s.status, hlt, hbad, hstatuses, hcopied⟩, hsettled,
            fun _ => ⟨?_, hbad⟩⟩
          rw [hstatuses, List.length_append, List.length_replicate,
            List.length_singleton]
          exact congrArg (· + 1) hheader
  · next i hpc =>
      simp only [hpc] at h
      obtain ⟨⟨hlt, hcopied, hasked, -, hstatuses, hright, hsettled⟩, hok⟩ := h
      cases hstep
      have hnext : Copied cfg call (i + 1)
          (Function.update s.buf i s.data) := by
        intro j
        by_cases hj : j = i
        · subst hj
          simp [hright hok]
        · rw [Function.update_of_ne hj, hcopied j]
          have hiff : j < i ↔ j < i + 1 := by omega
          simp only [hiff]
      refine ⟨⟨hlba, hcount, hle⟩, ?_⟩
      refine working_loop
        (s := { s with buf := Function.update s.buf i s.data })
        ⟨hlba, hcount, hle⟩ hlt hnext hasked ?_ hsettled
      rw [hstatuses, hok, List.replicate_succ']
  · next ok hpc => exact absurd hpc (hret ok)

/-- The request becomes visible to the device. -/
theorem Working.publish (hrange : InRange cfg call s)
    (h : Working cfg call s) {i : Nat} (hpc : s.pc = .publish i)
    (hstep : DiskReader.driver s = some t) :
    s.header = call.lba + call.asked.length ∧ call.asked.length < call.count ∧
      call.statuses = List.replicate call.asked.length kBlkSOk ∧
      InRange cfg { call with asked := call.asked ++ [s.header] } t ∧
      Working cfg { call with asked := call.asked ++ [s.header] } t := by
  obtain ⟨hlba, hcount, hle⟩ := hrange
  simp only [Working, hpc] at h
  simp only [DiskReader.driver, hpc] at hstep
  obtain ⟨⟨hlt, hcopied, rfl, hstatuses, hsettled⟩, hheader, hstatus⟩ := h
  cases hstep
  refine ⟨hheader, hlt, hstatuses, ⟨hlba, hcount, hle⟩, hlt, hcopied, by simp,
    hheader, hsettled.lt, [], false, by simp [hstatuses],
    ⟨?_, by simp only [hsettled.avail], hsettled.used⟩⟩
  simp only [hstatus, hsettled.avail, hsettled.dev, hsettled.flight]
  exact .posted

/-- The device does nothing but serve the outstanding request. -/
theorem Working.device (hrange : InRange cfg call s) (h : Working cfg call s)
    {move : Move} (hstep : DiskReader.device cfg s move = some t) :
    (move.statuses = [] ∨ call.asked.length = call.statuses.length + 1) ∧
      InRange cfg
        { call with statuses := call.statuses ++ move.statuses } t ∧
      Working cfg
        { call with statuses := call.statuses ++ move.statuses } t := by
  have hbusy : ¬ Settled s := by
    intro hsettled
    rw [hsettled.device_eq_none move] at hstep
    cases hstep
  obtain ⟨hlba, hcount, hle⟩ := hrange
  obtain ⟨hpcEq, hlbaEq, hcountEq, hbufEq, hheaderEq, -, hlastEq⟩ :=
    device_frame hstep
  have hrange' : InRange cfg
      { call with statuses := call.statuses ++ move.statuses } t :=
    ⟨hlbaEq.trans hlba, hcountEq.trans hcount, hle⟩
  have hduring : ∀ {i}, During cfg call s i →
      (move.statuses = [] ∨ call.asked.length = call.statuses.length + 1) ∧
      During cfg { call with statuses := call.statuses ++ move.statuses } t i := by
    rintro i ⟨hlt, hcopied, hasked, hheader, hlast, report, done, hstatuses,
      hout⟩
    rw [← hheader] at hout
    obtain ⟨hone, done', hout⟩ := hout.device hstep
    refine ⟨?_, hlt, hbufEq ▸ hcopied, hasked, hheaderEq.trans hheader,
      hlastEq ▸ hlast, report ++ move.statuses, done', ?_, ?_⟩
    · rcases hone with hnone | rfl
      · exact .inl hnone
      · refine .inr ?_
        rw [hasked, hstatuses]
        simp
    · simp only
      rw [hstatuses, List.append_assoc]
    · rw [hlastEq, ← hheader]
      exact hout
  unfold Working at h ⊢
  rw [hpcEq]
  cases hpc : s.pc with
  | idle => simp only [hpc] at h
  | setHeader i =>
      simp only [hpc] at h
      exact absurd h.settled hbusy
  | setStatus i =>
      simp only [hpc] at h
      exact absurd h.1.settled hbusy
  | setRing i =>
      simp only [hpc] at h
      exact absurd h.1.settled hbusy
  | publish i =>
      simp only [hpc] at h
      exact absurd h.1.settled hbusy
  | notify i =>
      simp only [hpc] at h
      obtain ⟨hone, hnext⟩ := hduring h
      exact ⟨hone, hrange', hnext⟩
  | poll i spins =>
      simp only [hpc] at h
      obtain ⟨hone, hnext⟩ := hduring h
      exact ⟨hone, hrange', hnext⟩
  | check i =>
      simp only [hpc] at h
      exact absurd h.settled hbusy
  | copy i =>
      simp only [hpc] at h
      exact absurd h.1.settled hbusy
  | ret ok =>
      simp only [hpc] at h
      exact absurd h.2.1 hbusy

theorem current_reports (past : List (Event Core)) (move : Move) :
    current (past ++ reports move) = (current past).map fun call =>
      { call with statuses := call.statuses ++ move.statuses } := by
  cases move <;> simp [reports, Move.statuses, current, nextCall]

theorem along_reports (h : History.Along (Law cfg) past) (move : Move)
    (hcall : current past = some call)
    (hone : move.statuses = [] ∨
      call.asked.length = call.statuses.length + 1) :
    History.Along (Law cfg) (past ++ reports move) := by
  cases move with
  | writeStatus k =>
      rcases hone with hnone | hasked
      · cases hnone
      · exact h.concat ⟨call, hcall, hasked⟩
  | writeError k code =>
      rcases hone with hnone | hasked
      · cases hnone
      · exact h.concat ⟨call, hcall, hasked⟩
  | _ => simpa [reports] using h

theorem SystemInv.work (h : SystemInv cfg past sys) {c : Core}
    (hholder : sys.holder = some c) (hcall : current past = some call)
    (hcore : call.core = c) (hrange : InRange cfg call sys.shared)
    (hworking : Working cfg call sys.shared)
    (hpatient : ¬ TimesOut sys.shared)
    (hdriver : DiskReader.driver sys.shared = some t)
    (hret : ∀ ok, sys.shared.pc ≠ .ret ok) :
    SystemInv cfg (past ++ requests sys.shared) { sys with shared := t } := by
  have hfree : sys.holder ≠ none := by
    rw [hholder]
    exact nofun
  by_cases hpublish : ∃ i, sys.shared.pc = .publish i
  · obtain ⟨i, hpc⟩ := hpublish
    obtain ⟨hheader, hlt, hstatuses, hrange', hworking'⟩ :=
      hworking.publish hrange hpc hdriver
    have hrequests : requests sys.shared =
        [(.request sys.shared.header : Event Core)] := by
      simp only [requests, hpc]
    have hlaw : Law cfg past (.request sys.shared.header) := by
      have hle := hrange.le
      exact ⟨by omega, call, hcall, hlt, hheader, hstatuses⟩
    rw [hrequests]
    refine ⟨fun hnone => absurd hnone hfree, fun c' hc' => ?_, h.spins,
      h.law.concat hlaw⟩
    cases hholder.symm.trans hc'
    refine ⟨{ call with asked := call.asked ++ [sys.shared.header] }, ?_,
      hcore, hrange', hworking'⟩
    rw [current_concat, hcall]
    rfl
  · rw [not_exists] at hpublish
    obtain ⟨hrange', hworking'⟩ :=
      hworking.driver hrange hpatient hdriver hret hpublish
    have hrequests : (requests sys.shared : List (Event Core)) = [] := by
      unfold requests
      split
      · next i hpc => exact absurd hpc (hpublish i)
      · rfl
    rw [hrequests, List.append_nil]
    refine ⟨fun hnone => absurd hnone hfree, fun c' hc' => ?_, h.spins, h.law⟩
    cases hholder.symm.trans hc'
    exact ⟨call, hcall, hcore, hrange', hworking'⟩

end

/-- Who spins on the lock asks for sectors that exist. -/
theorem SystemInv.spins_update (h : SystemInv cfg past sys) (c : Core)
    {caller : Caller}
    (hcaller : ∀ lba count buf, caller = .spin lba count buf →
      lba + count ≤ cfg.capacity) :
    ∀ c' lba count buf,
      Function.update sys.callers c caller c' = .spin lba count buf →
        lba + count ≤ cfg.capacity := by
  intro c' lba count buf hspin
  by_cases heq : c' = c
  · rw [heq, Function.update_self] at hspin
    exact hcaller lba count buf hspin
  · rw [Function.update_of_ne heq] at hspin
    exact h.spins c' lba count buf hspin

theorem SystemInv.check (h : SystemInv cfg past sys) (hvalid : cfg.valid = true)
    {c : Core} {lba count : Nat} {buf : Nat → Sector}
    {events : List (Event Core)}
    (hstep : systemStep cfg sys (.call c lba count buf) =
      some (events, sys')) :
    SystemInv cfg (past ++ events) sys' := by
  simp only [systemStep] at hstep
  split at hstep
  · split at hstep
    · split at hstep
      · next hout =>
          cases hstep
          have hpast : cfg.capacity < lba + count := by
            rw [hvalid] at hout
            simp only [Bool.true_eq_false, false_or] at hout
            omega
          refine ⟨?_, ?_, h.spins, h.law.concat hpast⟩
          · rw [current_concat]
            exact h.lock_free
          · rw [current_concat]
            exact h.held
      · next hin =>
          cases hstep
          simp only [not_or] at hin
          rw [List.append_nil]
          refine ⟨h.lock_free, h.held, h.spins_update c ?_, h.law⟩
          rintro lba' count' buf' ⟨⟩
          omega
    · cases hstep
  · cases hstep

theorem SystemInv.acquire (h : SystemInv cfg past sys) {c : Core}
    {events : List (Event Core)}
    (hstep : systemStep cfg sys (.acquire c) = some (events, sys')) :
    SystemInv cfg (past ++ events) sys' := by
  simp only [systemStep] at hstep
  split at hstep
  · next lba count buf hspin hfree =>
      cases hstep
      obtain ⟨-, hnone, hsettled⟩ := h.lock_free hfree
      have hle := h.spins c lba count buf hspin
      refine ⟨nofun, ?_, h.spins_update c nofun, h.law.concat ⟨hle, hnone⟩⟩
      rintro c' ⟨⟩
      rw [current_concat]
      refine ⟨⟨c, lba, count, buf, [], []⟩, rfl, rfl, ⟨rfl, rfl, hle⟩, ?_⟩
      exact working_loop
        (s := { sys.shared with lba := lba, count := count, buf := buf })
        ⟨rfl, rfl, hle⟩ (Nat.zero_le _) (fun j => rfl) rfl rfl hsettled
  · cases hstep

theorem SystemInv.driver (h : SystemInv cfg past sys)
    (hpatient : ¬ TimesOut sys.shared) {events : List (Event Core)}
    (hstep : systemStep cfg sys .driver = some (events, sys')) :
    SystemInv cfg (past ++ events) sys' := by
  simp only [systemStep] at hstep
  split at hstep
  · cases hstep
  · next c hholder =>
      obtain ⟨call, hcall, hcore, hrange, hworking⟩ := h.held c hholder
      obtain ⟨t, hdriver, heq⟩ := Option.map_eq_some_iff.mp hstep
      split at heq
      · next ok hpc =>
          cases heq
          simp only [Working, hpc] at hworking
          simp only [DiskReader.driver, hpc] at hdriver
          cases hdriver
          refine ⟨fun _ => ⟨rfl, ?_, hworking.2.1⟩, by simp,
            h.spins_update c (by simp),
            h.law.concat ⟨call, hcall, hcore, hworking.1⟩⟩
          rw [current_concat]
          cases current past <;> rfl
      · next hret =>
          cases heq
          exact h.work hholder hcall hcore hrange hworking hpatient hdriver
            fun ok hpc => hret ok hpc

theorem SystemInv.device (h : SystemInv cfg past sys) {move : Move}
    {events : List (Event Core)}
    (hstep : systemStep cfg sys (.device move) = some (events, sys')) :
    SystemInv cfg (past ++ events) sys' := by
  obtain ⟨t, hdevice, heq⟩ := Option.map_eq_some_iff.mp hstep
  cases heq
  cases hholder : sys.holder with
  | none =>
      obtain ⟨-, -, hsettled⟩ := h.lock_free hholder
      rw [hsettled.device_eq_none move] at hdevice
      cases hdevice
  | some c =>
      obtain ⟨call, hcall, hcore, hrange, hworking⟩ := h.held c hholder
      obtain ⟨hone, hrange', hworking'⟩ := hworking.device hrange hdevice
      refine ⟨nofun, ?_, h.spins, along_reports h.law move hcall hone⟩
      rintro c' ⟨⟩
      refine ⟨{ call with statuses := call.statuses ++ move.statuses }, ?_,
        hcore, hrange', hworking'⟩
      rw [current_reports, hcall]
      rfl

theorem SystemInv.step (h : SystemInv cfg past sys)
    (hvalid : cfg.valid = true) {action : SystemAction Core}
    (hpatient : action = .driver → ¬ TimesOut sys.shared)
    {events : List (Event Core)}
    (hstep : systemStep cfg sys action = some (events, sys')) :
    SystemInv cfg (past ++ events) sys' := by
  cases action with
  | call c lba count buf => exact h.check hvalid hstep
  | acquire c => exact h.acquire hstep
  | driver => exact h.driver (hpatient rfl) hstep
  | device move => exact h.device hstep

theorem PatientRun.inv (hvalid : cfg.valid = true)
    (h : PatientRun cfg past sys) : SystemInv cfg past sys := by
  induction h with
  | init data buf =>
      have hsettled : Settled (initial data buf) :=
        ⟨rfl, rfl, rfl, rfl, Nat.two_pow_pos 16⟩
      exact ⟨fun _ => ⟨rfl, rfl, hsettled⟩, nofun, nofun, History.along_nil⟩
  | step _ hpatient hstep ih => exact ih.step hvalid hpatient hstep

/-- In every run without a poll that gives up, of any length and from any
cores: whenever `g_lock` is free the three indices are the same 16-bit value,
no request is in flight and the slot that the driver fills next is the one the
device reads next; and the calls, requests and returns obey `Law`. -/
theorem run_indices_agree (hvalid : cfg.valid = true)
    (h : PatientRun cfg past sys) :
    (sys.holder = none →
      sys.shared.availIdx = sys.shared.usedIdx ∧
      sys.shared.usedIdx = sys.shared.lastUsed ∧
      sys.shared.lastUsed < 2 ^ 16 ∧ DeviceIdle sys.shared ∧
      sys.shared.availIdx % kQueueSize = sys.shared.devAvail % kQueueSize) ∧
    (∀ i, sys.shared.pc = .setRing i →
      sys.shared.availIdx % kQueueSize = sys.shared.devAvail % kQueueSize) ∧
    History.Along (Law cfg) past := by
  have hinv := h.inv hvalid
  have hslot : ∀ {s : State}, Settled s →
      s.availIdx % kQueueSize = s.devAvail % kQueueSize := by
    intro s hsettled
    rw [hsettled.avail, hsettled.dev]
  refine ⟨fun hfree => ?_, fun i hpc => ?_, hinv.law⟩
  · obtain ⟨-, -, hsettled⟩ := hinv.lock_free hfree
    exact ⟨hsettled.avail.trans hsettled.used.symm, hsettled.used, hsettled.lt,
      hsettled.idle, hslot hsettled⟩
  · cases hholder : sys.holder with
    | none =>
        obtain ⟨hidle, -⟩ := hinv.lock_free hholder
        rw [hpc] at hidle
        cases hidle
    | some c =>
        obtain ⟨call, -, -, -, hworking⟩ := hinv.held c hholder
        simp only [Working, hpc] at hworking
        exact hslot hworking.1.settled

/-- Carries out a list of actions without giving up on a poll. -/
def followPatiently (cfg : Config) (sys : System Core) :
    List (SystemAction Core) → Option (List (Event Core) × System Core)
  | [] => some ([], sys)
  | action :: rest =>
      if TimesOut sys.shared then none
      else
        (systemStep cfg sys action).bind fun (events, sys') =>
          (followPatiently cfg sys' rest).map fun (later, last) =>
            (events ++ later, last)

theorem PatientRun.follow (h : PatientRun cfg past sys)
    {actions : List (SystemAction Core)} {events : List (Event Core)}
    (hfollow : followPatiently cfg sys actions = some (events, sys')) :
    PatientRun cfg (past ++ events) sys' := by
  induction actions generalizing past sys events with
  | nil =>
      cases hfollow
      simpa using h
  | cons action rest ih =>
      unfold followPatiently at hfollow
      split at hfollow
      · cases hfollow
      · next hpatient =>
          obtain ⟨⟨events₁, sys₁⟩, hstep, hrest⟩ :=
            Option.bind_eq_some_iff.mp hfollow
          obtain ⟨⟨later, last⟩, hlater, heq⟩ := Option.map_eq_some_iff.mp hrest
          cases heq
          rw [← List.append_assoc]
          exact ih (h.step (fun _ => hpatient) hstep) hlater

/-- Two cores want to read; one reads sector 1 while the other spins. -/
theorem run_indices_agree_contend :
    ∃ (past : List (Event Bool)) (sys : System Bool),
      PatientRun numberedDisk past sys ∧ sys.holder = none ∧
      sys.shared.availIdx = 1 ∧ sys.shared.availIdx = sys.shared.usedIdx := by
  have hfollow : (followPatiently numberedDisk
      (⟨initial blank fun _ => blank, none, fun _ => .outside⟩ : System Bool)
      (List.flatten [[.call true 1 1 fun _ => blank,
          .call false 0 2 fun _ => blank, .acquire true],
        List.replicate 5 .driver,
        [.device .take, .device (.readHeader 0), .device (.writeData 0),
          .device (.writeStatus 0), .device (.use 0)],
        List.replicate 4 .driver])).map (fun r =>
      (r.2.holder, r.2.shared.availIdx)) = some (none, 1) := by
    decide +kernel
  obtain ⟨⟨past, sys⟩, heq, hfields⟩ := Option.map_eq_some_iff.mp hfollow
  simp only [Prod.mk.injEq] at hfields
  obtain ⟨hfree, hone⟩ := hfields
  have hrun := (PatientRun.init blank fun _ => blank).follow heq
  obtain ⟨hidle, -⟩ := run_indices_agree rfl hrun
  exact ⟨past, sys, hrun, hfree, hone, (hidle hfree).1⟩

end DiskReader

end IntroOs
