/-
When a disk read returns the right sector.  A completion is recognised only by
`used.idx` having moved, so an abandoned request that completes late passes
for the one that is being waited for.  As long as no request is started while
an earlier one is in flight, every successful read is right.
-/
import IntroOs.VirtioDisk

namespace IntroOs

namespace DiskReader

/-- The buffer holds the first `i` sectors of the current call. -/
def Filled (cfg : Config) (s : State) (i : Nat) : Prop :=
  ∀ j < i, s.buf j = cfg.disk (s.lba + j)

/-- The call is at sector `i`, with the sectors before it in the buffer. -/
def Reading (cfg : Config) (s : State) (i : Nat) : Prop :=
  i < s.count ∧ Filled cfg s i

/-- How far the one outstanding request, for sector `lba`, has come: the
status byte, the data buffer, the available index, the device's own index, the
requests in flight, the statuses reported for it, and whether it is done. -/
inductive Served (cfg : Config) (lba : Nat) :
    Nat → Sector → Nat → Nat → List Phase → List Nat → Bool → Prop
  | posted {data : Sector} {dev : Nat} :
      Served cfg lba kStatusPending data (inc16 dev) dev [] [] false
  | taken {data : Sector} {dev : Nat} :
      Served cfg lba kStatusPending data dev dev [.taken] [] false
  | header {data : Sector} {dev : Nat} :
      Served cfg lba kStatusPending data dev dev [.header lba] [] false
  | data {dev : Nat} :
      Served cfg lba kStatusPending (cfg.disk lba) dev dev [.data lba] [] false
  | status {code : Nat} {data : Sector} {dev : Nat}
      (right : code = kBlkSOk → data = cfg.disk lba) :
      Served cfg lba code data dev dev [.status] [code] false
  | used {code : Nat} {data : Sector} {dev : Nat}
      (right : code = kBlkSOk → data = cfg.disk lba) :
      Served cfg lba code data dev dev [] [code] true

/-- The outstanding request is the one for sector `i` of the call. -/
def Serving (cfg : Config) (s : State) (i : Nat) : Prop :=
  s.header = s.lba + i ∧ ∃ report done, Served cfg (s.lba + i) s.status s.data
    s.availIdx s.devAvail s.inflight report done

/-- The sector has arrived and the device has nothing left to write. -/
def Arrived (cfg : Config) (s : State) (i : Nat) : Prop :=
  s.data = cfg.disk (s.lba + i) ∧ s.devAvail = s.availIdx ∧
    (s.inflight = [.status] ∨ s.inflight = [])

/-- The invariant of quiet runs, one clause for each place of the driver. -/
def Inv (cfg : Config) (s : State) : Prop :=
  match s.pc with
  | .idle => True
  | .setHeader i => Reading cfg s i
  | .setStatus i => Reading cfg s i ∧ DeviceIdle s ∧ s.header = s.lba + i
  | .setRing i =>
      Reading cfg s i ∧ DeviceIdle s ∧ s.header = s.lba + i ∧
        s.status = kStatusPending
  | .publish i =>
      Reading cfg s i ∧ DeviceIdle s ∧ s.header = s.lba + i ∧
        s.status = kStatusPending
  | .notify i => Reading cfg s i ∧ Serving cfg s i
  | .poll i _ => Reading cfg s i ∧ Serving cfg s i
  | .check i => Reading cfg s i ∧ Serving cfg s i
  | .copy i => Reading cfg s i ∧ Arrived cfg s i
  | .ret ok => ok = true → Filled cfg s s.count

theorem Inv.readsRight {cfg : Config} {s : State} (h : Inv cfg s) :
    ReadsRight cfg s := by
  intro hpc
  simp only [Inv, hpc] at h
  exact h trivial

/-- The loop head is fine once the sectors before it have been copied. -/
theorem inv_loop {cfg : Config} {s : State} {i : Nat} (hle : i ≤ s.count)
    (h : Filled cfg s i) : Inv cfg (s.loop i) := by
  unfold State.loop
  by_cases hlt : i < s.count
  · simp only [hlt, ↓reduceIte, Inv]
    exact ⟨hlt, h⟩
  · simp only [hlt, ↓reduceIte, Inv]
    have heq : i = s.count := Nat.le_antisymm hle (Nat.le_of_not_lt hlt)
    intro _
    rw [← heq]
    exact h

theorem inv_readSectors (cfg : Config) (s : State) (lba count : Nat)
    (buf : Nat → Sector) : Inv cfg (readSectors cfg s lba count buf) := by
  unfold readSectors
  split
  · simp [Inv]
  · apply inv_loop (Nat.zero_le _)
    intro j hj
    exact absurd hj (Nat.not_lt_zero j)

/-- A device move leaves the driver's side alone. -/
theorem device_frame {cfg : Config} {s t : State} {move : Move}
    (h : device cfg s move = some t) :
    t.pc = s.pc ∧ t.lba = s.lba ∧ t.count = s.count ∧ t.buf = s.buf ∧
      t.header = s.header ∧ t.availIdx = s.availIdx ∧
      t.lastUsed = s.lastUsed := by
  unfold device at h
  split at h <;> split at h
  all_goals first
    | cases h
    | (split at h <;> cases h)
  all_goals exact ⟨rfl, rfl, rfl, rfl, rfl, rfl, rfl⟩

/-- The device has at most one request, and then no other to take. -/
def Single (s : State) : Prop :=
  s.inflight = [] ∨ ∃ phase, s.inflight = [phase] ∧ s.devAvail = s.availIdx

/-- What the device can do with a single request. -/
inductive Serve (cfg : Config) (s : State) : Move → State → Prop
  | take (flight : s.inflight = []) (ne : s.devAvail ≠ s.availIdx) :
      Serve cfg s .take
        { s with devAvail := inc16 s.devAvail, inflight := [.taken] }
  | readHeader (flight : s.inflight = [.taken]) :
      Serve cfg s (.readHeader 0) { s with inflight := [.header s.header] }
  | writeData {lba : Nat} (flight : s.inflight = [.header lba]) :
      Serve cfg s (.writeData 0)
        { s with data := cfg.disk lba, inflight := [.data lba] }
  | writeStatus {lba : Nat} (flight : s.inflight = [.data lba]) :
      Serve cfg s (.writeStatus 0)
        { s with status := kBlkSOk, inflight := [.status] }
  | writeError {lba code : Nat}
      (flight : s.inflight = [.header lba] ∨ s.inflight = [.data lba])
      (code_ne : code ≠ kBlkSOk) :
      Serve cfg s (.writeError 0 code)
        { s with status := code, inflight := [.status] }
  | use (flight : s.inflight = [.status]) :
      Serve cfg s (.use 0)
        { s with usedIdx := inc16 s.usedIdx, inflight := [] }

theorem eq_of_single {s : State} (h : Single s) {k : Nat} {phase : Phase}
    (hk : s.inflight[k]? = some phase) : k = 0 ∧ s.inflight = [phase] := by
  rcases h with hnil | ⟨found, hone, -⟩
  · simp [hnil] at hk
  · rw [hone] at hk ⊢
    cases k with
    | zero =>
        cases hk
        exact ⟨rfl, rfl⟩
    | succ k => simp at hk

theorem device_serve {cfg : Config} {s t : State} {move : Move}
    (hone : Single s) (h : device cfg s move = some t) :
    Serve cfg s move t := by
  cases move with
  | take =>
      simp only [device] at h
      split at h
      · cases h
      · next hne =>
          cases h
          rcases hone with hnil | ⟨_, _, heq⟩
          · rw [hnil]
            exact .take hnil hne
          · exact absurd heq hne
  | readHeader k =>
      simp only [device] at h
      split at h
      · next hk =>
          obtain ⟨rfl, hflight⟩ := eq_of_single hone hk
          cases h
          rw [hflight]
          exact .readHeader hflight
      · cases h
  | writeData k =>
      simp only [device] at h
      split at h
      · next lba hk =>
          obtain ⟨rfl, hflight⟩ := eq_of_single hone hk
          cases h
          rw [hflight]
          exact .writeData hflight
      · cases h
  | writeStatus k =>
      simp only [device] at h
      split at h
      · next lba hk =>
          obtain ⟨rfl, hflight⟩ := eq_of_single hone hk
          cases h
          rw [hflight]
          exact .writeStatus hflight
      · cases h
  | writeError k code =>
      simp only [device] at h
      split at h
      · next lba hk =>
          obtain ⟨rfl, hflight⟩ := eq_of_single hone hk
          split at h
          · cases h
          · next hcode =>
              cases h
              rw [hflight]
              exact .writeError (.inl hflight) hcode
      · next lba hk =>
          obtain ⟨rfl, hflight⟩ := eq_of_single hone hk
          split at h
          · cases h
          · next hcode =>
              cases h
              rw [hflight]
              exact .writeError (.inr hflight) hcode
      · cases h
  | use k =>
      simp only [device] at h
      split at h
      · next hk =>
          obtain ⟨rfl, hflight⟩ := eq_of_single hone hk
          cases h
          rw [hflight]
          exact .use hflight
      · cases h

theorem device_of_idle (cfg : Config) {s : State} (h : DeviceIdle s)
    (move : Move) : device cfg s move = none := by
  obtain ⟨hnil, heq⟩ := h
  cases move <;> simp [device, hnil, heq]

/-- The statuses that a move reports. -/
def Move.statuses : Move → List Nat
  | .writeStatus _ => [kBlkSOk]
  | .writeError _ code => [code]
  | _ => []

/-- The device carries the outstanding request one phase further, reports its
status once on the way, and raises `used.idx` when it is done. -/
theorem Served.device {cfg : Config} {s t : State} {move : Move}
    {report : List Nat} {done : Bool}
    (hstep : DiskReader.device cfg s move = some t)
    (h : Served cfg s.header s.status s.data s.availIdx s.devAvail s.inflight
      report done) :
    done = false ∧ (move.statuses = [] ∨ report = []) ∧ ∃ done',
      Served cfg s.header t.status t.data t.availIdx t.devAvail t.inflight
        (report ++ move.statuses) done' ∧
      t.usedIdx = if done' then inc16 s.usedIdx else s.usedIdx := by
  rcases s with ⟨header, status, data, ring, availIdx, usedIdx, lastUsed, pc,
    lba, count, buf, devAvail, inflight⟩
  simp only at h
  cases h with
  | posted =>
      cases device_serve (.inl rfl) hstep with
      | take _ _ => exact ⟨rfl, .inl rfl, false, .taken, rfl⟩
      | writeError hflight _ => rcases hflight with h | h <;> cases h
      | _ hflight => cases hflight
  | taken =>
      cases device_serve (.inr ⟨_, rfl, rfl⟩) hstep with
      | readHeader _ => exact ⟨rfl, .inl rfl, false, .header, rfl⟩
      | take hflight _ => cases hflight
      | writeError hflight _ => rcases hflight with h | h <;> cases h
      | _ hflight => cases hflight
  | header =>
      cases device_serve (.inr ⟨_, rfl, rfl⟩) hstep with
      | writeData hflight =>
          cases hflight
          exact ⟨rfl, .inl rfl, false, .data, rfl⟩
      | writeError _ hcode =>
          exact ⟨rfl, .inr rfl, false, .status fun hok => absurd hok hcode, rfl⟩
      | take hflight _ => cases hflight
      | _ hflight => cases hflight
  | data =>
      cases device_serve (.inr ⟨_, rfl, rfl⟩) hstep with
      | writeStatus _ => exact ⟨rfl, .inr rfl, false, .status fun _ => rfl, rfl⟩
      | writeError _ hcode =>
          exact ⟨rfl, .inr rfl, false, .status fun hok => absurd hok hcode, rfl⟩
      | take hflight _ => cases hflight
      | _ hflight => cases hflight
  | status hright =>
      cases device_serve (.inr ⟨_, rfl, rfl⟩) hstep with
      | use _ => exact ⟨rfl, .inl rfl, true, .used hright, rfl⟩
      | take hflight _ => cases hflight
      | writeError hflight _ => rcases hflight with h | h <;> cases h
      | _ hflight => cases hflight
  | used hright =>
      have hnone := device_of_idle cfg (s := ⟨header, status, data,
        ring, availIdx, usedIdx, lastUsed, pc, lba, count, buf, availIdx, []⟩)
        ⟨rfl, rfl⟩ move
      rw [hnone] at hstep
      cases hstep

theorem Arrived.device {cfg : Config} {s t : State} {move : Move} {i : Nat}
    (hstep : DiskReader.device cfg s move = some t) (h : Arrived cfg s i) :
    Arrived cfg t i := by
  obtain ⟨hdata, heq, hflight⟩ := h
  rcases hflight with hflight | hflight
  · have hserve := device_serve (.inr ⟨_, hflight, heq⟩) hstep
    cases hserve with
    | use _ => exact ⟨hdata, heq, Or.inr rfl⟩
    | take hnil _ =>
        rw [hnil] at hflight
        cases hflight
    | writeError hother _ =>
        rw [hflight] at hother
        rcases hother with h | h <;> cases h
    | _ hother =>
        rw [hflight] at hother
        cases hother
  · rw [device_of_idle cfg ⟨hflight, heq⟩ move] at hstep
    cases hstep

/-- What is true of the driver's side of a call survives a device move. -/
theorem Reading.device {cfg : Config} {s t : State} {move : Move} {i : Nat}
    (hstep : DiskReader.device cfg s move = some t) (h : Reading cfg s i) :
    Reading cfg t i := by
  obtain ⟨-, hlba, hcount, hbuf, -⟩ := device_frame hstep
  unfold Reading Filled
  rw [hlba, hcount, hbuf]
  exact h

theorem Serving.device {cfg : Config} {s t : State} {move : Move} {i : Nat}
    (hstep : DiskReader.device cfg s move = some t) (h : Serving cfg s i) :
    Serving cfg t i := by
  obtain ⟨-, hlba, -, -, hheader, -⟩ := device_frame hstep
  obtain ⟨heq, report, done, hserved⟩ := h
  rw [← heq] at hserved
  obtain ⟨-, -, done', hserved', -⟩ := hserved.device hstep
  unfold Serving
  rw [hlba, hheader, ← heq]
  exact ⟨rfl, _, done', hserved'⟩

theorem Inv.device {cfg : Config} {s t : State} {move : Move}
    (hstep : DiskReader.device cfg s move = some t) (h : Inv cfg s) :
    Inv cfg t := by
  have hframe := device_frame hstep
  have hbusy : ¬ DeviceIdle s := by
    intro hidle
    rw [device_of_idle cfg hidle move] at hstep
    cases hstep
  cases hpc : s.pc with
  | idle => simp [Inv, hframe.1, hpc]
  | setHeader i =>
      simp only [Inv, hframe.1, hpc] at h ⊢
      exact h.device hstep
  | setStatus i =>
      simp only [Inv, hpc] at h
      exact absurd h.2.1 hbusy
  | setRing i =>
      simp only [Inv, hpc] at h
      exact absurd h.2.1 hbusy
  | publish i =>
      simp only [Inv, hpc] at h
      exact absurd h.2.1 hbusy
  | notify i =>
      simp only [Inv, hframe.1, hpc] at h ⊢
      exact ⟨h.1.device hstep, h.2.device hstep⟩
  | poll i spins =>
      simp only [Inv, hframe.1, hpc] at h ⊢
      exact ⟨h.1.device hstep, h.2.device hstep⟩
  | check i =>
      simp only [Inv, hframe.1, hpc] at h ⊢
      exact ⟨h.1.device hstep, h.2.device hstep⟩
  | copy i =>
      simp only [Inv, hframe.1, hpc] at h ⊢
      exact ⟨h.1.device hstep, h.2.device hstep⟩
  | ret ok =>
      obtain ⟨hpcEq, hlba, hcount, hbuf, -⟩ := hframe
      simp only [Inv, hpcEq, hpc, Filled, hlba, hcount, hbuf] at h ⊢
      exact h

/-- A status byte that reads OK belongs to the outstanding request, whose
sector has then arrived. -/
theorem Serving.arrived {cfg : Config} {s : State} {i : Nat}
    (h : Serving cfg s i) (hok : s.status = kBlkSOk) : Arrived cfg s i := by
  rcases s with ⟨header, status, data, ring, availIdx, usedIdx, lastUsed, pc,
    lba, count, buf, devAvail, inflight⟩
  obtain ⟨-, report, done, hserved⟩ := h
  simp only at hserved hok
  cases hserved with
  | posted => cases hok
  | taken => cases hok
  | header => cases hok
  | data => cases hok
  | status hright => exact ⟨hright hok, rfl, Or.inl rfl⟩
  | used hright => exact ⟨hright hok, rfl, Or.inr rfl⟩

theorem Inv.driver {cfg : Config} {s t : State}
    (hstep : DiskReader.driver s = some t) (hquiet : Quiet s)
    (h : Inv cfg s) : Inv cfg t := by
  unfold Inv at h
  unfold DiskReader.driver at hstep
  split at hstep
  · cases hstep
  · next i hpc =>
      simp only [hpc] at h
      cases hstep
      exact ⟨h, hquiet i hpc, rfl⟩
  · next i hpc =>
      simp only [hpc] at h
      cases hstep
      exact ⟨h.1, h.2.1, h.2.2, rfl⟩
  · next i hpc =>
      simp only [hpc] at h
      cases hstep
      exact h
  · next i hpc =>
      simp only [hpc] at h
      cases hstep
      obtain ⟨hread, ⟨hnil, heq⟩, hheader, hstatus⟩ := h
      refine ⟨hread, hheader, [], false, ?_⟩
      simp only [hstatus, hnil, ← heq]
      exact .posted
  · next i hpc =>
      simp only [hpc] at h
      cases hstep
      exact h
  · next i spins hpc =>
      simp only [hpc] at h
      split at hstep
      · split at hstep
        · cases hstep
          intro hfalse
          cases hfalse
        · cases hstep
          exact h
      · cases hstep
        exact h
  · next i hpc =>
      simp only [hpc] at h
      split at hstep
      · next hok =>
          cases hstep
          exact ⟨h.1, h.2.arrived hok⟩
      · cases hstep
        intro hfalse
        cases hfalse
  · next i hpc =>
      simp only [hpc] at h
      cases hstep
      obtain ⟨⟨hlt, hfilled⟩, harrived⟩ := h
      refine inv_loop (s := { s with buf := Function.update s.buf i s.data })
        (Nat.succ_le_of_lt hlt) ?_
      intro j hj
      by_cases hji : j = i
      · subst hji
        simpa using harrived.1
      · simp only [Function.update_of_ne hji]
        exact hfilled j (by omega)
  · cases hstep
    trivial

theorem Inv.step {cfg : Config} {s t : State} {action : Action}
    (hstep : DiskReader.step cfg s action = some t) (hquiet : Quiet s)
    (h : Inv cfg s) : Inv cfg t := by
  cases action with
  | call lba count buf =>
      simp only [DiskReader.step] at hstep
      split at hstep
      · cases hstep
        exact inv_readSectors cfg s lba count buf
      · cases hstep
  | driver => exact h.driver hstep hquiet
  | device move => exact h.device hstep

/-- Whenever a call returns true the buffer holds the requested sectors, in
every run that starts no request while an earlier one is in flight. -/
theorem quiet_readsRight (cfg : Config) {s : State} (h : Run cfg Quiet s) :
    ReadsRight cfg s := by
  have hinv : Inv cfg s := by
    induction h with
    | init data buf => exact trivial
    | step _ hquiet hstep ih => exact ih.step hstep hquiet
  exact hinv.readsRight

instance : DecidablePred DeviceIdle := fun _ =>
  inferInstanceAs (Decidable (_ ∧ _))

instance : DecidablePred Quiet := fun s =>
  match h : s.pc with
  | .setHeader i => decidable_of_iff (DeviceIdle s)
      ⟨fun hidle _ _ => hidle, fun hquiet => hquiet i h⟩
  | .idle | .setStatus _ | .setRing _ | .publish _ | .notify _ | .poll _ _
  | .check _ | .copy _ | .ret _ => .isTrue fun i hi => by simp [h] at hi

/-- Carries out a list of actions, as long as each state meets `ok`. -/
def follow (cfg : Config) (ok : State → Prop) [DecidablePred ok] (s : State) :
    List Action → Option State
  | [] => some s
  | action :: rest =>
      if ok s then (step cfg s action).bind fun t => follow cfg ok t rest
      else none

theorem Run.follow {cfg : Config} {ok : State → Prop} [DecidablePred ok]
    {s t : State} (h : Run cfg ok s) {actions : List Action}
    (hfollow : DiskReader.follow cfg ok s actions = some t) : Run cfg ok t := by
  induction actions generalizing s with
  | nil =>
      cases hfollow
      exact h
  | cons action rest ih =>
      unfold DiskReader.follow at hfollow
      split at hfollow
      · next hok =>
          obtain ⟨u, hu, hrest⟩ := Option.bind_eq_some_iff.mp hfollow
          exact ih (h.step hok hu) hrest
      · cases hfollow

theorem Run.spin {cfg : Config} {s : State} {i : Nat}
    (h : Run cfg (fun _ => True) s) (hpc : s.pc = .poll i 0)
    (hwait : s.usedIdx = s.lastUsed) {spins : Nat} (hle : spins ≤ kPollLimit) :
    Run cfg (fun _ => True) { s with pc := .poll i spins } := by
  induction spins with
  | zero =>
      rw [← hpc]
      exact h
  | succ spins ih =>
      refine (ih (Nat.le_of_succ_le hle)).step trivial
        (show DiskReader.step cfg _ .driver = some _ from ?_)
      simp only [DiskReader.step, DiskReader.driver]
      rw [if_pos hwait, if_neg (Nat.not_lt.mpr hle)]

/-- A driver whose request makes no progress gives up. -/
theorem Run.giveUp {cfg : Config} {s : State} {i : Nat}
    (h : Run cfg (fun _ => True) s) (hpc : s.pc = .poll i 0)
    (hwait : s.usedIdx = s.lastUsed) :
    Run cfg (fun _ => True) { s with pc := .ret false } := by
  refine (h.spin hpc hwait (Nat.le_refl _)).step trivial
    (show DiskReader.step cfg _ .driver = some _ from ?_)
  simp only [DiskReader.step, DiskReader.driver]
  rw [if_pos hwait, if_pos (Nat.lt_succ_self _)]

/-- A disk of two sectors, each filled with its own number. -/
def numberedDisk : Config where
  valid := true
  capacity := 2
  capacity_lt := by decide
  disk := fun lba _ => UInt8.ofNat lba

def blank : Sector := fun _ => 0

theorem quiet_readsRight_numberedDisk :
    ∃ s : State, Run numberedDisk Quiet s ∧ s.pc = .ret true ∧ s.lba = 1 ∧
      s.count = 1 ∧ ReadsRight numberedDisk s := by
  have hrun : (follow numberedDisk Quiet (initial blank fun _ => blank)
      (List.flatten [[.call 1 1 fun _ => blank], List.replicate 5 .driver,
        [.device .take, .device (.readHeader 0), .device (.writeData 0),
          .device (.writeStatus 0), .device (.use 0)],
        List.replicate 3 .driver])).map (fun s => (s.pc, s.lba, s.count)) =
      some (.ret true, 1, 1) := by
    decide +kernel
  obtain ⟨s, hfollow, hfields⟩ := Option.map_eq_some_iff.mp hrun
  simp only [Prod.mk.injEq] at hfields
  obtain ⟨hpc, hlba, hcount⟩ := hfields
  have hquiet := (Run.init blank fun _ => blank).follow hfollow
  exact ⟨s, hquiet, hpc, hlba, hcount, quiet_readsRight numberedDisk hquiet⟩

/-- A request for sector 0 whose header the device has read, while the driver
polls. -/
def abandoned : Option State :=
  follow numberedDisk (fun _ => True) (initial blank fun _ => blank)
    (List.flatten [[.call 0 1 fun _ => blank], List.replicate 5 .driver,
      [.device .take, .device (.readHeader 0)]])

/-- A call for sector 1 from a state in which the driver has given up, served
by what the device still owes. -/
def lateCompletion (s : State) : Option State :=
  follow numberedDisk (fun _ => True) { s with pc := .ret false }
    (List.flatten [[.driver, .call 1 1 fun _ => blank],
      List.replicate 5 .driver,
      [.device (.writeData 0), .device (.writeStatus 0), .device (.use 0)],
      List.replicate 3 .driver])

/-- The request for sector 0 is abandoned after the device has read its
header, and completes while the driver waits for sector 1. -/
theorem late_completion_misread :
    ¬ ∀ s, Run numberedDisk (fun _ => True) s → ReadsRight numberedDisk s := by
  intro hall
  have hstart : abandoned.map (fun s => (s.pc, s.usedIdx, s.lastUsed)) =
      some (.poll 0 0, 0, 0) := by
    decide +kernel
  have hlate : (abandoned.bind lateCompletion).map (fun t =>
      (t.pc, t.lba, t.count, (t.buf 0 ⟨0, by decide⟩).toNat)) =
      some (.ret true, 1, 1, 0) := by
    decide +kernel
  obtain ⟨s, hfirst, hfields⟩ := Option.map_eq_some_iff.mp hstart
  simp only [Prod.mk.injEq] at hfields
  obtain ⟨hpoll, hused, hlast⟩ := hfields
  rw [hfirst, Option.bind_some] at hlate
  obtain ⟨t, hsecond, hfields⟩ := Option.map_eq_some_iff.mp hlate
  simp only [Prod.mk.injEq] at hfields
  obtain ⟨hpc, hlba, hcount, hbuf⟩ := hfields
  have hgiveUp := ((Run.init blank fun _ => blank).follow hfirst).giveUp
    hpoll (hused.trans hlast.symm)
  have hread := hall t (hgiveUp.follow hsecond) hpc 0 (by omega)
  rw [hread, hlba] at hbuf
  exact absurd hbuf (by decide)

end DiskReader

end IntroOs
