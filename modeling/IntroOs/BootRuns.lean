/-
What the boot comes to.  No core faults on the UART or reaches past
`g_table`, each finds its own number and its idle thread, the lines of the
boot come out whole and in order, and all cores end up running threads unless
one starves at the lock of the console.
-/
import IntroOs.BootLive

namespace IntroOs

namespace Boot

variable {Sem : Type} {K : Kernel} {F : Firmware} {l l' : Local}
  {s s' : Shared Sem}

/-- The number of a core: its index in `cpus`.  A bootstrap processor that is
not listed there has the number 0, and the core at that index is not
released. -/
def number (F : Firmware) : Cpu → Nat
  | .bsp => F.self
  | .ap i => i

/-- A core has printed nothing, or the marker came first. -/
theorem BspAt.head (h : BspAt K F l s) :
    s.output = [] ∨ s.output.head? = some (.bsp, marker) := by
  unfold BspAt at h
  cases hplace : l.place with
  | check | mmuInit | activate | marker | hang =>
      simp only [hplace] at h
      exact .inl h.2.1
  | heapInit | percoreInit | find | writeId =>
      simp only [hplace] at h
      rw [h.2.1]
      exact .inr rfl
  | extra | release | prepare | banner | threads =>
      simp only [hplace] at h
      exact .inr h.1.ready.head
  | _ => simp only [hplace] at h

/-- Up to the threads, the bootstrap processor has printed some of its lines. -/
theorem BspAt.said (h : BspAt K F l s) (hplace : l.place ≠ .threads) :
    saidBy .bsp s.output <+: bootTexts F .bsp := by
  have hfirst : [marker] <+: bootTexts F .bsp := ⟨_, rfl⟩
  unfold BspAt at h
  cases hat : l.place with
  | check | mmuInit | activate | marker | hang =>
      simp only [hat] at h
      rw [h.2.1]
      exact List.nil_prefix
  | heapInit | percoreInit | find | writeId =>
      simp only [hat] at h
      rw [h.2.1]
      exact hfirst
  | extra | release | prepare =>
      simp only [hat] at h
      rw [h.2.1]
      exact hfirst
  | banner rest =>
      simp only [hat] at h
      exact ⟨rest, h.2.1⟩
  | threads => exact absurd hat hplace
  | _ => simp only [hat] at h

theorem ApAt.said {i : Nat} (h : ApAt K F i l s) (hplace : l.place ≠ .threads) :
    saidBy (.ap i) s.output = [] := by
  unfold ApAt at h
  cases hat : l.place with
  | parked =>
      simp only [hat] at h
      exact h
  | apWriteId =>
      simp only [hat] at h
      exact h.2
  | apActivate | greet =>
      simp only [hat] at h
      exact h.2.1
  | threads => exact absurd hat hplace
  | _ => simp only [hat] at h

variable [DecidableEq Sem] {cnt : Sem → Int} {st : State Sem}

/-- What is true of a core that runs threads. -/
structure Arrived (K : Kernel) (F : Firmware) (st : State Sem) (c : Cpu) :
    Prop where
  serves : Serves K F (st.locals c) st.shared
  me : (st.locals c).me = number F c
  said : bootTexts F c <+: saidBy c st.shared.output
  other : ∀ i, c = .ap i → i ≠ F.self

theorem Inv.arrived (hw : WellPlaced K F) (h : Inv K F cnt st) {c : Cpu}
    (hplace : (st.locals c).place = .threads) : Arrived K F st c := by
  have hcores : kMaxCores < 2 ^ 32 := by decide
  cases c with
  | bsp =>
      have hat := h.bsp
      rw [BspAt, hplace] at hat
      obtain ⟨hup, hsaid, -⟩ := hat
      have hself := self_lt hw
      refine ⟨h.serves hw hplace, ?_, hsaid, fun i hi => ?_⟩
      · rw [Local.me, hup.tpidr, Nat.mod_eq_of_lt (by omega)]
        rfl
      · cases hi
  | ap i =>
      have hat := h.ap i
      rw [ApAt, hplace] at hat
      obtain ⟨hgone, hsaid, htpidr, -⟩ := hat
      obtain ⟨-, hlt, hne, -⟩ := h.released i hgone
      have hfit := hw.cores
      refine ⟨h.serves hw hplace, ?_, hsaid, ?_⟩
      · rw [Local.me, htpidr, Nat.mod_eq_of_lt (by omega)]
        rfl
      · rintro j ⟨⟩
        exact hne

theorem number_inj {c c' : Cpu} (hc : ∀ i, c = .ap i → i ≠ F.self)
    (hc' : ∀ i, c' = .ap i → i ≠ F.self) (h : number F c = number F c') :
    c = c' := by
  cases c with
  | bsp =>
      cases c' with
      | bsp => rfl
      | ap j => exact absurd h.symm (hc' j rfl)
  | ap i =>
      cases c' with
      | bsp => exact absurd h (hc i rfl)
      | ap j => exact congrArg Cpu.ap h

/-- The places where a core has gone wrong. -/
theorem Inv.sound (h : Inv K F cnt st) (c : Cpu) :
    (st.locals c).place ≠ .fault ∧ (st.locals c).place ≠ .wild ∧
      ((st.locals c).place = .hang → ¬ F.Answers) := by
  cases c with
  | bsp =>
      have hat := h.bsp
      refine ⟨fun hplace => ?_, fun hplace => ?_, fun hplace => ?_⟩
      · rwa [BspAt, hplace] at hat
      · rwa [BspAt, hplace] at hat
      · rw [BspAt, hplace] at hat
        exact hat.2.2
  | ap i =>
      have hat := h.ap i
      refine ⟨fun hplace => ?_, fun hplace => ?_, fun hplace => ?_⟩
      · rwa [ApAt, hplace] at hat
      · rwa [ApAt, hplace] at hat
      · rw [ApAt, hplace] at hat
        exact hat.elim

theorem mpidr_self (h : F.bspMpidr ∈ F.mpidrs) :
    F.mpidrs[F.self]? = some F.bspMpidr := by
  have hsome : (F.mpidrs.findIdx? fun mpidr => mpidr = F.bspMpidr).isSome := by
    rw [List.findIdx?_isSome, List.any_eq_true]
    exact ⟨_, h, by simp⟩
  obtain ⟨i, hi⟩ := Option.isSome_iff_exists.mp hsome
  obtain ⟨hlt, hget, -⟩ := List.findIdx?_eq_some_iff_getElem.mp hi
  rw [Firmware.self, hi, Option.getD_some, List.getElem?_eq_getElem hlt]
  simpa using hget

/-- Turns of one core and of the UART. -/
def turnsOf (c : Cpu) (n : Nat) : Turn Sem :=
  if n % 2 = 0 then .core c .run else .uart

section

omit [DecidableEq Sem]

theorem turnsOf_fair {c : Cpu} (hc : Exists F c) :
    Fair F (fun c' => c' = c) (turnsOf c : Nat → Turn Sem) where
  real := by
    rintro c' rfl
    exact hc
  present := by
    intro n c' action hturn
    rw [turnsOf] at hturn
    split at hturn
    · cases hturn
      rfl
    · cases hturn
  uart n := ⟨2 * n + 1, by omega, if_neg (by omega)⟩
  often := by
    rintro c' rfl n
    exact ⟨2 * n, by omega, if_pos (by omega)⟩

end

/-- While nobody else is at the console, a core can come to its threads by
itself. -/
theorem exists_landed (hw : WellPlaced K F) (hdepth : 0 < F.fifoDepth)
    (hanswers : F.Answers) (h : Run K F cnt st) {c : Cpu} (hc : Exists F c)
    (hout : ∀ c' ≠ c, st.tty.callers c' = .outside) (hfree : Free c st)
    (hplace : (st.locals c).place ≠ .threads) :
    ∃ st', Run K F cnt st' ∧ Landed c st' ∧ ∀ c' ≠ c,
      st'.locals c' = st.locals c' ∧ st'.tty.callers c' = .outside := by
  have hfair : Fair F (fun c' => c' = c) (turnsOf c : Nat → Turn Sem) :=
    turnsOf_fair hc
  have hnot := not_starves_alone hw h hfair rfl fun c' hc' => hc'
  obtain ⟨n, -, hlanded⟩ := boots_leadsTo hw h hfair hdepth hout hanswers rfl
    hnot 0 ⟨hfree, hplace⟩
  refine ⟨_, run_play h hfair n, hlanded, fun c' hne => ?_⟩
  obtain ⟨hlocal, hcaller⟩ := others_play hw h hfair hne n
  exact ⟨hlocal, hcaller.trans (hout c' hne)⟩

/-- Once the bootstrap processor runs threads, all cores are released. -/
theorem Inv.all_free (h : Inv K F cnt st) (hlisted : F.bspMpidr ∈ F.mpidrs)
    (hplace : (st.locals .bsp).place = .threads) {c : Cpu}
    (hc : Exists F c) : Free c st := by
  rintro i rfl
  obtain ⟨mpidr, hget, hne⟩ := hc
  have hat := h.bsp
  rw [BspAt, hplace] at hat
  obtain ⟨-, -, hsent⟩ := hat
  refine hsent i (List.getElem?_eq_some_iff.mp hget).1 ?_
  rintro rfl
  rw [mpidr_self hlisted] at hget
  exact hne (Option.some.inj hget).symm

/-- Two cores, of which the second one is the bootstrap processor. -/
def sampleKernel : Kernel where
  table := 0xffffffff80002000
  arena := Heap.sampleArena
  arenaBytes := fun _ => 0
  tables := fun _ => 0
  digits := fun _ => 0
  line := fun _ => 0

def sampleFirmware : Firmware where
  revisionSupported := true
  mpResponse := true
  executableAddressResponse := true
  mpidrs := [0x80000000, 0x80000001]
  bspMpidr := 0x80000001
  image := Mmu.sampleImage
  fifoDepth := 32

theorem sample_wellPlaced : WellPlaced sampleKernel sampleFirmware :=
  ⟨⟨by decide, by decide⟩, by decide, fun _ _ => rfl, by decide⟩

theorem sample_exists : Exists sampleFirmware (.ap 0) :=
  ⟨0x80000000, rfl, by decide⟩

def sampleStart : State Unit :=
  initial sampleKernel (fun _ => 1) (fun _ => 0) (fun _ => Mmu.sampleRegs)
    ⟨0, 0⟩ (fun _ => 0) ⟨[], []⟩

theorem sample_start : Run sampleKernel sampleFirmware (fun _ => 1)
    sampleStart :=
  .init _ (fun _ => Mmu.sampleRegs_reached) _ _ _

/-- Both cores can come to run threads. -/
theorem sample_landed : ∃ st : State Unit,
    Run sampleKernel sampleFirmware (fun _ => 1) st ∧
      (st.locals .bsp).place = .threads ∧
      (st.locals (.ap 0)).place = .threads := by
  have hdepth : 0 < sampleFirmware.fifoDepth := by decide
  have hanswers : sampleFirmware.Answers := ⟨rfl, rfl, rfl⟩
  have hbsp : Exists sampleFirmware .bsp := trivial
  obtain ⟨st, hrun, ⟨hplace, houtside⟩, hothers⟩ :=
    exists_landed sample_wellPlaced hdepth hanswers sample_start hbsp
      (fun _ _ => rfl) (fun i hi => by cases hi) (by decide)
  have hfree : Free (.ap 0) st :=
    (hrun.inv sample_wellPlaced).all_free (by decide) hplace sample_exists
  have hparked : (st.locals (.ap 0)).place ≠ .threads := by
    rw [(hothers (.ap 0) (by decide)).1]
    decide
  have hout (c : Cpu) (_ : c ≠ .ap 0) : st.tty.callers c = .outside := by
    by_cases hc : c = .bsp
    · rw [hc]
      exact houtside
    · exact (hothers c hc).2
  obtain ⟨st', hrun', ⟨hplace', -⟩, hothers'⟩ :=
    exists_landed sample_wellPlaced hdepth hanswers hrun sample_exists hout
      hfree hparked
  exact ⟨st', hrun', by rwa [(hothers' .bsp (by decide)).1], hplace'⟩

/-- In every interleaving of the cores' boot code and of the threads, no core
prints before it reaches the UART or uses `g_table` where it has no entry, and
`kmain` hangs only when an answer of the bootloader is missing.  The cores that
run threads have numbers of their own below `kMaxCores`, find the idle threads
that `percore::init` built in the heap, and together they make a run of the
thread system. -/
theorem boot_safe (hw : WellPlaced K F) (h : Run K F cnt st) :
    (∀ c, (st.locals c).place ≠ .fault ∧ (st.locals c).place ≠ .wild ∧
      ((st.locals c).place = .hang → ¬ F.Answers)) ∧
    (∀ c, (st.locals c).place = .threads →
      (st.locals c).me = number F c ∧ (st.locals c).me < kMaxCores ∧
      uartMapped (st.locals c) st.shared ∧ ∃ built,
        st.shared.idle = some built ∧ Threads.percoreInit K.arena
          (List.finRange kMaxCores) K.arenaBytes = some built) ∧
    (∀ c c', (st.locals c).place = .threads →
      (st.locals c').place = .threads →
      (st.locals c).me = (st.locals c').me → c = c') ∧
    Threads.AnyRun cnt st.shared.events st.shared.machine := by
  have hinv := h.inv hw
  refine ⟨hinv.sound, fun c hplace => ?_, fun c c' hplace hplace' hme => ?_,
    hinv.run⟩
  · obtain ⟨hserves, hme, -, -⟩ := hinv.arrived hw hplace
    obtain ⟨built, hbuilt⟩ := Option.isSome_iff_exists.mp hserves.ready.idle
    refine ⟨hme, hserves.me_lt,
      uart_of_active hw hserves.ready.mapped hserves.active, built, hbuilt, ?_⟩
    rw [← hserves.ready.built, hbuilt]
  · have hleft := hinv.arrived hw hplace
    have hright := hinv.arrived hw hplace'
    rw [hleft.me, hright.me] at hme
    exact number_inj hleft.other hright.other hme

/-- Two cores run threads, with the numbers 1 and 0. -/
theorem boot_safe_sample : ∃ st : State Unit,
    Run sampleKernel sampleFirmware (fun _ => 1) st ∧
      (st.locals .bsp).place = .threads ∧
      (st.locals (.ap 0)).place = .threads ∧
      (st.locals .bsp).me = 1 ∧ (st.locals (.ap 0)).me = 0 ∧
      uartMapped (st.locals (.ap 0)) st.shared ∧
      Threads.AnyRun (fun _ => 1) st.shared.events st.shared.machine := by
  obtain ⟨st, hrun, hbsp, hap⟩ := sample_landed
  obtain ⟨-, hthreads, -, hmachine⟩ := boot_safe sample_wellPlaced hrun
  obtain ⟨hme, -, -, -⟩ := hthreads .bsp hbsp
  obtain ⟨hme', -, huart, -⟩ := hthreads (.ap 0) hap
  exact ⟨st, hrun, hbsp, hap, hme.trans (by decide), hme', huart, hmachine⟩

/-- The marker is the first line of all.  Each core prints the lines of its
boot in order and once, and nothing else before it runs threads.  The lines are
the prints that have returned in a run of the console. -/
theorem boot_output (hw : WellPlaced K F) (h : Run K F cnt st) :
    (st.shared.output = [] ∨
      st.shared.output.head? = some (.bsp, marker)) ∧
    (∀ c, if (st.locals c).place = .threads
      then bootTexts F c <+: saidBy c st.shared.output
      else saidBy c st.shared.output <+: bootTexts F c) ∧
    ∃ uart calls log, st.shared.output = lines log ∧
      Monitor.Run (Console.print Cpu F.fifoDepth) uart calls log st.tty := by
  have hinv := h.inv hw
  refine ⟨hinv.bsp.head, fun c => ?_, hinv.logged⟩
  by_cases hplace : (st.locals c).place = .threads
  · rw [if_pos hplace]
    exact (hinv.arrived hw hplace).said
  · rw [if_neg hplace]
    cases c with
    | bsp => exact hinv.bsp.said hplace
    | ap i =>
        rw [(hinv.ap i).said hplace]
        exact List.nil_prefix

theorem boot_output_sample : ∃ st : State Unit,
    Run sampleKernel sampleFirmware (fun _ => 1) st ∧
      bootTexts sampleFirmware (.ap 0) <+: saidBy (.ap 0) st.shared.output ∧
      ∃ uart calls log, st.shared.output = lines log ∧
        Monitor.Run (Console.print Cpu 32) uart calls log st.tty := by
  obtain ⟨st, hrun, -, hap⟩ := sample_landed
  obtain ⟨-, hsaid, hlogged⟩ := boot_output sample_wellPlaced hrun
  have hgreeted := hsaid (.ap 0)
  rw [if_pos hap] at hgreeted
  exact ⟨st, hrun, hgreeted, hlogged⟩

/-- When the bootloader answers and lists the bootstrap processor, and the
cores and the UART get their turns again and again, then from any point of any
run each core comes to run threads and stays there, its prints and the waits in
them included.  What can keep it from that is one thing only: a core that
starves at the lock of the console, which does not hand it over in turn. -/
theorem boot_completes (hw : WellPlaced K F) (hanswers : F.Answers)
    (hlisted : F.bspMpidr ∈ F.mpidrs) (hdepth : 0 < F.fifoDepth)
    (h : Run K F cnt st) {turns : Nat → Turn Sem}
    (hfair : Fair F (Exists F) turns) {c : Cpu} (hc : Exists F c) :
    (∃ n, ∀ m ≥ n, ((play K F turns st m).locals c).place = .threads) ∨
      ∃ c', Starves K F turns st c' := by
  by_cases hstarves : ∃ c', Starves K F turns st c'
  · exact .inr hstarves
  refine .inl ?_
  have hnot (c : Cpu) : ¬ Starves K F turns st c :=
    fun hc => hstarves ⟨c, hc⟩
  have hout (c : Cpu) (hnone : ¬ Exists F c) : st.tty.callers c = .outside :=
    h.outside_of_absent hw hnone
  have hbsp : Exists F .bsp := trivial
  obtain ⟨n, -, hplace⟩ := arrives hw h hfair hdepth hout hanswers hbsp
    (hnot .bsp) (n := 0) fun i hi => by cases hi
  have hfree := (inv_play hw h hfair n).all_free hlisted
    (hplace n (Nat.le_refl n)) hc
  obtain ⟨m, -, harrived⟩ := arrives hw h hfair hdepth hout hanswers hc
    (hnot c) hfree
  exact ⟨m, harrived⟩

/-- The two cores and the UART take turns. -/
def sampleTurns (n : Nat) : Turn Unit :=
  if n % 3 = 0 then .core .bsp .run
  else if n % 3 = 1 then .core (.ap 0) .run else .uart

theorem sample_fair : Fair sampleFirmware (Exists sampleFirmware)
    sampleTurns where
  real _ hc := hc
  present := by
    intro n c action hturn
    rw [sampleTurns] at hturn
    split at hturn
    · cases hturn
      trivial
    · split at hturn
      · cases hturn
        exact sample_exists
      · cases hturn
  uart n := by
    refine ⟨3 * n + 2, by omega, ?_⟩
    show sampleTurns (3 * n + 2) = .uart
    rw [sampleTurns, if_neg (by omega), if_neg (by omega)]
  often := by
    intro c hc n
    cases c with
    | bsp => exact ⟨3 * n, by omega, if_pos (by omega)⟩
    | ap i =>
        obtain ⟨mpidr, hget, hne⟩ := hc
        have hlt : i < 2 := (List.getElem?_eq_some_iff.mp hget).1
        have hi : i = 0 := by
          by_contra hpos
          have hone : i = 1 := by omega
          subst hone
          exact hne (Option.some.inj hget).symm
        refine ⟨3 * n + 1, by omega, ?_⟩
        show sampleTurns (3 * n + 1) = .core (.ap i) .run
        rw [sampleTurns, if_neg (by omega), if_pos (by omega), hi]

theorem boot_completes_sample :
    (∃ n, ∀ m ≥ n, ((play sampleKernel sampleFirmware sampleTurns sampleStart
      m).locals (.ap 0)).place = .threads) ∨
    ∃ c', Starves sampleKernel sampleFirmware sampleTurns sampleStart c' :=
  boot_completes sample_wellPlaced ⟨rfl, rfl, rfl⟩ (by decide) (by decide)
    sample_start sample_fair sample_exists

end Boot

end IntroOs
