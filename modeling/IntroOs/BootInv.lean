/-
What every step of the boot keeps: where each core is, what it can rely on
there, and what it has printed.  A core is released only when all it needs is
ready, and the print a core is in is the one of its boot code.
-/
import IntroOs.Boot

namespace IntroOs

namespace Boot

open Stage1 (Regs)

variable {Sem : Type} {K : Kernel} {F : Firmware}

/-- `mmu::init` has run. -/
structure Mapped (K : Kernel) (F : Firmware) (s : Shared Sem) : Prop where
  globals : s.globals = (Mmu.init F.image K.table K.tables).1
  tables : s.tables = (Mmu.init F.image K.table K.tables).2

/-- `mmu::activate_this_core` has run on the core. -/
def Active (K : Kernel) (F : Firmware) (l : Local) : Prop :=
  ∃ r, F.image.Reached r ∧
    l.regs = Mmu.activateThisCore (Mmu.init F.image K.table K.tables).1 r

/-- All that has to be done before another core may run. -/
structure Ready (K : Kernel) (F : Firmware) (s : Shared Sem) : Prop where
  mapped : Mapped K F s
  idle : s.idle.isSome = true
  built : s.idle = Threads.percoreInit K.arena (List.finRange kMaxCores)
    K.arenaBytes
  head : s.output.head? = some (.bsp, marker)

def Quiet (s : Shared Sem) : Prop := ∀ i, s.gotoAddress i = false

/-- The bootstrap processor, from `smp::init` on. -/
structure Up (K : Kernel) (F : Firmware) (l : Local) (s : Shared Sem) :
    Prop where
  ready : Ready K F s
  active : Active K F l
  tpidr : l.tpidr = F.self

/-- The loop of `smp::init` has sent on its way each core below `n`. -/
def SentBelow (F : Firmware) (n : Nat) (s : Shared Sem) : Prop :=
  ∀ j < n, j ≠ F.self → s.gotoAddress j = true

/-- What holds at each place of `kmain`. -/
def BspAt (K : Kernel) (F : Firmware) (l : Local) (s : Shared Sem) : Prop :=
  match l.place with
  | .check | .mmuInit => Quiet s ∧ s.output = [] ∧ s.tables = K.tables
  | .hang => Quiet s ∧ s.output = [] ∧ ¬ F.Answers
  | .activate => Quiet s ∧ s.output = [] ∧ Mapped K F s
  | .marker => Quiet s ∧ s.output = [] ∧ Mapped K F s ∧ Active K F l
  | .heapInit =>
      Quiet s ∧ s.output = [(.bsp, marker)] ∧ Mapped K F s ∧ Active K F l
  | .percoreInit =>
      Quiet s ∧ s.output = [(.bsp, marker)] ∧ Mapped K F s ∧ Active K F l ∧
        s.arena = some (Heap.init K.arena K.arenaBytes)
  | .find i =>
      Quiet s ∧ s.output = [(.bsp, marker)] ∧ Ready K F s ∧ Active K F l ∧
        ∀ j < i, F.mpidrs[j]? ≠ some F.bspMpidr
  | .writeId self =>
      Quiet s ∧ s.output = [(.bsp, marker)] ∧ Ready K F s ∧ Active K F l ∧
        self = F.self
  | .extra self i =>
      Up K F l s ∧ saidBy .bsp s.output = [marker] ∧ self = F.self ∧
        (∀ j, s.gotoAddress j = true → j < i) ∧ SentBelow F i s
  | .release self i =>
      Up K F l s ∧ saidBy .bsp s.output = [marker] ∧ self = F.self ∧
        (∀ j, s.gotoAddress j = true → j < i) ∧ i < F.cpuCount ∧ i ≠ self ∧
        s.extraArgument i = i ∧ SentBelow F i s
  | .prepare =>
      Up K F l s ∧ saidBy .bsp s.output = [marker] ∧ SentBelow F F.cpuCount s
  | .banner rest =>
      Up K F l s ∧ saidBy .bsp s.output ++ rest = bootTexts F .bsp ∧
        SentBelow F F.cpuCount s
  | .threads =>
      Up K F l s ∧ bootTexts F .bsp <+: saidBy .bsp s.output ∧
        SentBelow F F.cpuCount s
  | _ => False

/-- What holds at each place of `ap_entry`. -/
def ApAt (K : Kernel) (F : Firmware) (i : Nat) (l : Local) (s : Shared Sem) :
    Prop :=
  match l.place with
  | .parked => saidBy (.ap i) s.output = []
  | .apWriteId => s.gotoAddress i = true ∧ saidBy (.ap i) s.output = []
  | .apActivate =>
      s.gotoAddress i = true ∧ saidBy (.ap i) s.output = [] ∧ l.tpidr = i
  | .greet =>
      s.gotoAddress i = true ∧ saidBy (.ap i) s.output = [] ∧ l.tpidr = i ∧
        Active K F l
  | .threads =>
      s.gotoAddress i = true ∧
        bootTexts F (.ap i) <+: saidBy (.ap i) s.output ∧ l.tpidr = i ∧
        Active K F l
  | _ => False

/-- What a core that is released can rely on. -/
def Released (K : Kernel) (F : Firmware) (s : Shared Sem) : Prop :=
  ∀ i, s.gotoAddress i = true → Ready K F s ∧ i < F.cpuCount ∧ i ≠ F.self ∧
    s.extraArgument i = i

/-- The print that a core is in is the one of its boot code, or a thread's. -/
def Pends (K : Kernel) (F : Firmware) (c : Cpu) (l : Local) (s : Shared Sem)
    (tty : Tty) : Prop :=
  l.place ≠ .threads → ∀ text ∈ (tty.callers c).pending,
    ∃ place, runStep K F c l s = some (.prints text place)

/-- The console is in a run of its own, and has ended the prints of the
output. -/
def Logged (F : Firmware) (s : Shared Sem) (tty : Tty) : Prop :=
  ∃ uart calls log, s.output = lines log ∧
    Monitor.Run (Console.print Cpu F.fifoDepth) uart calls log tty

structure Inv (K : Kernel) (F : Firmware) (cnt : Sem → Int) [DecidableEq Sem]
    (st : State Sem) : Prop where
  bsp : BspAt K F (st.locals .bsp) st.shared
  ap : ∀ i, ApAt K F i (st.locals (.ap i)) st.shared
  released : Released K F st.shared
  regs : ∀ c, F.image.Reached (st.locals c).regs
  pends : ∀ c, Pends K F c (st.locals c) st.shared st.tty
  logged : Logged F st.shared st.tty
  run : Threads.AnyRun cnt st.shared.events st.shared.machine

variable {l l' : Local} {s s' : Shared Sem}

theorem saidBy_self (c : Cpu) (output : List (Cpu × List UInt8))
    (text : List UInt8) :
    saidBy c (output ++ [(c, text)]) = saidBy c output ++ [text] := by
  simp [saidBy]

theorem saidBy_other {c c' : Cpu} (h : c' ≠ c)
    (output : List (Cpu × List UInt8)) (text : List UInt8) :
    saidBy c (output ++ [(c', text)]) = saidBy c output := by
  simp [saidBy, h]

/-- On a core that has run `activate_this_core`, the UART is there. -/
theorem uart_of_active (hw : WellPlaced K F) (hmapped : Mapped K F s)
    (hactive : Active K F l) : uartMapped l s := by
  obtain ⟨r, hreached, hr⟩ := hactive
  intro reg hreg
  have hlow : kUartPhysBase + reg < 2 ^ 30 := by
    simp only [List.mem_cons, List.not_mem_nil, or_false] at hreg
    rcases hreg with rfl | rfl <;> decide
  have haddr : Stage1.untagged r (kUartPhysBase + reg) = kUartPhysBase + reg := by
    rw [Stage1.untagged, Nat.mod_eq_of_lt (by omega), ite_self]
  rw [hr, hmapped.tables, Mmu.translate_activated hw.inside hw.aligned hw.zero
    hreached, haddr, if_pos hlow]

/-- What a step in a print does: it goes on, or the print returns. -/
inductive Prints (F : Firmware) (c : Cpu) (l : Local) (s : Shared Sem)
    (tty : Tty) (text : Console.Text) (next : Place) :
    Local → Shared Sem → Tty → Prop
  | goesOn {calls : List (Cpu × Console.Text)} {tty' : Tty}
      (step : Monitor.step (Console.print Cpu F.fifoDepth) tty
        (printAction c text tty) = some (calls, [], tty'))
      (pending : (tty'.callers c).pending = [text]) :
      Prints F c l s tty text next l s tty'
  | returns {calls : List (Cpu × Console.Text)} {tty' : Tty}
      (step : Monitor.step (Console.print Cpu F.fifoDepth) tty
        (printAction c text tty) = some (calls, [⟨c, text, ()⟩], tty'))
      (pending : (tty'.callers c).pending = []) :
      Prints F c l s tty text next (l.goto next)
        { s with output := s.output ++ [(c, text.bytes)] } tty'

theorem Prints.of_print {c : Cpu} {tty tty' : Tty} {text : Console.Text}
    {next : Place} (huart : uartMapped l s)
    (hpending : ∀ text' ∈ (tty.callers c).pending, text' = text)
    (h : print F c l s tty text next = some (l', s', tty')) :
    Prints F c l s tty text next l' s' tty' := by
  rw [print, if_pos huart] at h
  obtain ⟨⟨calls, log, tty''⟩, hstep, heq⟩ := Option.map_eq_some_iff.mp h
  have hmade := (Monitor.Does.of_step hstep).made_eq c
  have hdoes := Monitor.Does.of_step hstep
  cases hcaller : tty.callers c with
  | outside =>
      rw [printAction, hcaller] at hdoes
      cases hdoes with
      | early outside start => cases start
      | begins outside start =>
          cases heq
          simp only [lines, List.map_nil, List.append_nil]
          exact .goesOn hstep (by simp [Monitor.Caller.pending])
  | spins text' =>
      obtain rfl := hpending text' (by simp [hcaller, Monitor.Caller.pending])
      rw [printAction, hcaller] at hdoes
      cases hdoes with
      | enters spins isFree =>
          rw [hcaller] at spins
          cases spins
          cases heq
          simp only [lines, List.map_nil, List.append_nil]
          exact .goesOn hstep (by simp [Monitor.Caller.pending])
  | inside text' place =>
      obtain rfl := hpending text' (by simp [hcaller, Monitor.Caller.pending])
      rw [printAction, hcaller] at hdoes
      cases hdoes with
      | goesOn inside step =>
          rw [hcaller] at inside
          cases inside
          cases heq
          simp only [lines, List.map_nil, List.append_nil]
          exact .goesOn hstep (by simp [Monitor.Caller.pending])
      | returns inside step =>
          rw [hcaller] at inside
          cases inside
          cases heq
          exact .returns hstep (by simp [Monitor.Caller.pending])

theorem core_printAction (c : Cpu) (text : Console.Text) (tty : Tty) :
    (printAction c text tty).core = some c := by
  rw [printAction]
  split <;> rfl

/-- A step in a print is one of the console, and the other cores stay where
they are there. -/
theorem Prints.run {c : Cpu} {tty tty' : Tty} {text : Console.Text}
    {next : Place} (h : Prints F c l s tty text next l' s' tty') :
    (∃ calls log, Monitor.step (Console.print Cpu F.fifoDepth) tty
        (printAction c text tty) = some (calls, log, tty') ∧
      s'.output = s.output ++ lines log) ∧
    ∀ c' ≠ c, tty'.callers c' = tty.callers c' := by
  have hothers {calls log} (hstep : Monitor.step
      (Console.print Cpu F.fifoDepth) tty (printAction c text tty) =
        some (calls, log, tty')) (c' : Cpu) (hne : c' ≠ c) :
      tty'.callers c' = tty.callers c' := by
    refine (Monitor.Does.of_step hstep).callers_of_ne ?_
    rw [core_printAction]
    exact fun heq => hne (Option.some.inj heq).symm
  cases h with
  | goesOn step pending =>
      exact ⟨⟨_, _, step, (List.append_nil _).symm⟩, hothers step⟩
  | returns step pending => exact ⟨⟨_, _, step, rfl⟩, hothers step⟩

/-- A print does not undo what is ready. -/
theorem Ready.print (h : Ready K F s) (line : Cpu × List UInt8) :
    Ready K F { s with output := s.output ++ [line] } := by
  refine ⟨⟨h.mapped.globals, h.mapped.tables⟩, h.idle, h.built, ?_⟩
  have hhead := h.head
  cases houtput : s.output with
  | nil =>
      rw [houtput] at hhead
      cases hhead
  | cons first rest =>
      rw [houtput] at hhead
      exact hhead

theorem Quiet.released (h : Quiet s) : Released K F s := by
  intro i hi
  rw [h i] at hi
  cases hi

theorem self_of_found {i : Nat} (hfound : F.mpidrs[i]? = some F.bspMpidr)
    (hfirst : ∀ j < i, F.mpidrs[j]? ≠ some F.bspMpidr) : F.self = i := by
  have hindex : F.mpidrs.findIdx? (fun mpidr => mpidr = F.bspMpidr) =
      some i := by
    rw [List.findIdx?_eq_some_iff_getElem]
    obtain ⟨hi, hget⟩ := List.getElem?_eq_some_iff.mp hfound
    refine ⟨hi, by simpa using hget, fun j hj => ?_⟩
    have hne := hfirst j hj
    rw [List.getElem?_eq_getElem (by omega)] at hne
    simpa using hne
  rw [Firmware.self, hindex, Option.getD_some]

theorem self_of_missing
    (hmissing : ∀ j < F.cpuCount, F.mpidrs[j]? ≠ some F.bspMpidr) :
    F.self = 0 := by
  have hindex : F.mpidrs.findIdx? (fun mpidr => mpidr = F.bspMpidr) =
      none := by
    rw [List.findIdx?_eq_none_iff]
    intro mpidr hmem
    obtain ⟨j, hj⟩ := List.mem_iff_getElem?.mp hmem
    have hlt : j < F.cpuCount := (List.getElem?_eq_some_iff.mp hj).1
    simp only [decide_eq_false_iff_not]
    rintro rfl
    exact hmissing j hlt hj
  rw [Firmware.self, hindex, Option.getD_none]

theorem self_lt (hw : WellPlaced K F) : F.self < kMaxCores := by
  by_cases hfound : ∃ i, F.mpidrs.findIdx?
      (fun mpidr => mpidr = F.bspMpidr) = some i
  · obtain ⟨i, hi⟩ := hfound
    obtain ⟨hlt, -⟩ := List.findIdx?_eq_some_iff_getElem.mp hi
    have hcores := hw.cores
    rw [Firmware.self, hi, Option.getD_some]
    exact Nat.lt_of_lt_of_le hlt hcores
  · have hnone := Option.eq_none_iff_forall_ne_some.mpr
      fun i hi => hfound ⟨i, hi⟩
    rw [Firmware.self, hnone, Option.getD_none]
    decide

/-- What the other cores see of a step of the bootstrap processor. -/
structure Advances (K : Kernel) (F : Firmware) (s : Shared Sem) (l' : Local)
    (s' : Shared Sem) : Prop where
  place : BspAt K F l' s'
  released : Released K F s'
  gone : ∀ i, s.gotoAddress i = true → s'.gotoAddress i = true
  said : ∀ i, saidBy (.ap i) s'.output = saidBy (.ap i) s.output
  events : s'.events = s.events
  machine : s'.machine = s.machine

/-- A step that the others do not see. -/
theorem Advances.alone (h : BspAt K F l' s) (hreleased : Released K F s) :
    Advances K F s l' s :=
  ⟨h, hreleased, fun _ => id, fun _ => rfl, rfl, rfl⟩

/-- A step in front of the release of the others. -/
theorem Advances.quiet (h : BspAt K F l' s') (hquiet : Quiet s)
    (hquiet' : Quiet s')
    (hsaid : ∀ i, saidBy (.ap i) s'.output = saidBy (.ap i) s.output)
    (hevents : s'.events = s.events) (hmachine : s'.machine = s.machine) :
    Advances K F s l' s' := by
  refine ⟨h, hquiet'.released, fun i hi => ?_, hsaid, hevents, hmachine⟩
  rw [hquiet i] at hi
  cases hi

theorem Released.print (h : Released K F s) (line : Cpu × List UInt8) :
    Released K F { s with output := s.output ++ [line] } := by
  intro i hi
  obtain ⟨hready, hlt, hne, hextra⟩ := h i hi
  exact ⟨hready.print line, hlt, hne, hextra⟩

/-- A print of the bootstrap processor. -/
theorem Advances.prints {text : List UInt8}
    (h : BspAt K F l' { s with output := s.output ++ [(.bsp, text)] })
    (hreleased : Released K F s) :
    Advances K F s l' { s with output := s.output ++ [(.bsp, text)] } :=
  ⟨h, hreleased.print _, fun _ => id, fun i => saidBy_other (by simp) _ _, rfl,
    rfl⟩

/-- `percore::init` has the heap it needs. -/
theorem percoreInit_eq
    (h : s.arena = some (Heap.init K.arena K.arenaBytes)) :
    ∃ built, Threads.percoreInit K.arena (List.finRange kMaxCores)
        K.arenaBytes = some built ∧
      percoreInit K s = (.find 0, { s with idle := some built }) := by
  obtain ⟨built, hbuilt, -⟩ := Threads.percoreInit_returns (A := K.arena)
    (show (List.finRange kMaxCores).length ≤ 31 by decide) K.arenaBytes
  refine ⟨built, hbuilt, ?_⟩
  rw [percoreInit, h, Option.elim_some, ← Threads.percoreInit, hbuilt,
    Option.elim_some]

/-- The check of what Limine answers. -/
theorem bsp_check (hplace : l.place = .check) (hat : BspAt K F l s) :
    Advances K F s (l.goto (if F.Answers then .mmuInit else .hang)) s := by
  rw [BspAt, hplace] at hat
  obtain ⟨hquiet, houtput, htables⟩ := hat
  by_cases hanswers : F.Answers
  · rw [if_pos hanswers]
    exact .alone ⟨hquiet, houtput, htables⟩ hquiet.released
  · rw [if_neg hanswers]
    exact .alone ⟨hquiet, houtput, hanswers⟩ hquiet.released

/-- `percore::init` builds all idle threads. -/
theorem bsp_percoreInit (hplace : l.place = .percoreInit)
    (hat : BspAt K F l s) :
    Advances K F s (l.goto (percoreInit K s).1) (percoreInit K s).2 := by
  rw [BspAt, hplace] at hat
  obtain ⟨hquiet, houtput, hmapped, hactive, harena⟩ := hat
  obtain ⟨built, hbuilt⟩ := percoreInit_eq harena
  rw [hbuilt.2]
  refine .quiet ⟨hquiet, houtput, ⟨⟨hmapped.globals, hmapped.tables⟩, rfl,
    hbuilt.1.symm, ?_⟩, hactive, fun j hj => ?_⟩ hquiet hquiet
    (fun _ => rfl) rfl rfl
  · show s.output.head? = _
    rw [houtput]
    rfl
  · exact absurd hj (Nat.not_lt_zero j)

/-- The search of `smp::init` for its own entry. -/
theorem bsp_find {i : Nat} (hplace : l.place = .find i)
    (hat : BspAt K F l s) (hstep : runStep K F .bsp l s = some (.goes l' s')) :
    Advances K F s l' s' := by
  rw [BspAt, hplace] at hat
  obtain ⟨hquiet, houtput, hready, hactive, hfirst⟩ := hat
  simp only [runStep, hplace] at hstep
  by_cases hi : i < F.cpuCount
  · rw [if_pos hi] at hstep
    by_cases hself : F.mpidrs[i]? = some F.bspMpidr
    · rw [if_pos hself] at hstep
      cases hstep
      exact .alone ⟨hquiet, houtput, hready, hactive,
        (self_of_found hself hfirst).symm⟩ hquiet.released
    · rw [if_neg hself] at hstep
      cases hstep
      refine .alone ⟨hquiet, houtput, hready, hactive, fun j hj => ?_⟩
        hquiet.released
      rcases Nat.lt_succ_iff_lt_or_eq.mp hj with hlt | rfl
      · exact hfirst j hlt
      · exact hself
  · rw [if_neg hi] at hstep
    cases hstep
    refine .alone ⟨hquiet, houtput, hready, hactive, ?_⟩ hquiet.released
    exact (self_of_missing fun j hj => hfirst j (by omega)).symm

theorem Ready.with_extra (h : Ready K F s) (extraArgument : Nat → Nat)
    (gotoAddress : Nat → Bool) :
    Ready K F { s with
      extraArgument := extraArgument, gotoAddress := gotoAddress } :=
  ⟨⟨h.mapped.globals, h.mapped.tables⟩, h.idle, h.built, h.head⟩

/-- The loop of `smp::init` over the other cores. -/
theorem bsp_extra {self i : Nat} (hplace : l.place = .extra self i)
    (hat : BspAt K F l s) (hreleased : Released K F s)
    (hstep : runStep K F .bsp l s = some (.goes l' s')) :
    Advances K F s l' s' := by
  rw [BspAt, hplace] at hat
  obtain ⟨hup, hsaid, hself, hbelow, hsent⟩ := hat
  simp only [runStep, hplace] at hstep
  by_cases hi : i < F.cpuCount
  · rw [if_pos hi] at hstep
    by_cases heq : i = self
    · rw [if_pos heq] at hstep
      cases hstep
      refine .alone ⟨⟨hup.ready, hup.active, hup.tpidr⟩, hsaid, hself,
        fun j hj => Nat.lt_succ_of_lt (hbelow j hj), fun j hj hne => ?_⟩
        hreleased
      exact hsent j (by omega) hne
    · rw [if_neg heq] at hstep
      cases hstep
      refine ⟨⟨⟨hup.ready.with_extra _ _, hup.active, hup.tpidr⟩, hsaid, hself,
        hbelow, hi, heq, Function.update_self .., hsent⟩, fun j hj => ?_,
        fun _ => id, fun _ => rfl, rfl, rfl⟩
      obtain ⟨-, hlt, hne, hextra⟩ := hreleased j hj
      refine ⟨hup.ready.with_extra _ _, hlt, hne, ?_⟩
      have hji : j ≠ i := Nat.ne_of_lt (hbelow j hj)
      exact (Function.update_of_ne hji _ _).trans hextra
  · rw [if_neg hi] at hstep
    cases hstep
    exact .alone ⟨⟨hup.ready, hup.active, hup.tpidr⟩, hsaid,
      fun j hj hne => hsent j (by omega) hne⟩ hreleased

/-- The store that sends a core on its way. -/
theorem bsp_release {self i : Nat} (hplace : l.place = .release self i)
    (hat : BspAt K F l s) (hreleased : Released K F s)
    (hstep : runStep K F .bsp l s = some (.goes l' s')) :
    Advances K F s l' s' := by
  rw [BspAt, hplace] at hat
  obtain ⟨hup, hsaid, hself, hbelow, hi, hne, hextra, hsent⟩ := hat
  simp only [runStep, hplace] at hstep
  cases hstep
  have hnow (j : Nat) : Function.update s.gotoAddress i true j = true ↔
      j = i ∨ s.gotoAddress j = true := by
    by_cases hji : j = i
    · simp [hji]
    · simp [hji]
  refine ⟨⟨⟨hup.ready.with_extra _ _, hup.active, hup.tpidr⟩, hsaid, hself,
    fun j hj => ?_, fun j hj hj' => (hnow j).mpr ?_⟩, fun j hj => ?_,
    fun j hj => (hnow j).mpr (.inr hj), fun _ => rfl, rfl, rfl⟩
  · rcases (hnow j).mp hj with rfl | hold
    · exact Nat.lt_succ_self j
    · exact Nat.lt_succ_of_lt (hbelow j hold)
  · rcases Nat.lt_succ_iff_lt_or_eq.mp hj with hlt | rfl
    · exact .inr (hsent j hlt hj')
    · exact .inl rfl
  · rcases (hnow j).mp hj with rfl | hold
    · exact ⟨hup.ready.with_extra _ _, hi, hself ▸ hne, hextra⟩
    · obtain ⟨-, hlt, hne', hextra'⟩ := hreleased j hold
      exact ⟨hup.ready.with_extra _ _, hlt, hne', hextra'⟩

/-- The banner fits its buffer. -/
theorem Up.banner (hw : WellPlaced K F) (h : Up K F l s) :
    Console.printBootBanner K.digits K.line l.me (F.cpuCount % 2 ^ 32) =
      some (bootTexts F .bsp).tail := by
  have hself : F.self < 8 := self_lt hw
  have hcores : F.cpuCount ≤ 8 := hw.cores
  have hme : l.me = F.self := by
    rw [Local.me, h.tpidr]
    exact Nat.mod_eq_of_lt (by omega)
  have hcount : F.cpuCount % 2 ^ 32 = F.cpuCount :=
    Nat.mod_eq_of_lt (by omega)
  rw [hme, hcount, Console.printBootBanner_eq _ _ (by omega) (by omega)]
  rfl

theorem bootTexts_ne_zero (F : Firmware) (c : Cpu) :
    ∀ text ∈ bootTexts F c, ∀ b ∈ text, b ≠ 0 := by
  have hliteral : ∀ text ∈ [marker, Console.ascii "\n",
      Console.ascii "Hello, World!\n", Console.ascii "Booted on core ",
      Console.ascii " of ", Console.ascii " total.\n",
      Console.ascii "Hello from core ", Console.ascii ", online!\n"],
      ∀ b ∈ text, b ≠ 0 := by
    decide +kernel
  simp only [List.forall_mem_cons, List.not_mem_nil, IsEmpty.forall_iff,
    implies_true, and_true] at hliteral
  obtain ⟨hmarker, hempty, hhello, hbooted, hof, htotal, hfrom, honline⟩ :=
    hliteral
  cases c with
  | bsp =>
      simp only [bootTexts, List.forall_mem_cons, List.not_mem_nil,
        IsEmpty.forall_iff, implies_true, and_true, List.mem_flatten]
      refine ⟨hmarker, hempty, hhello, ?_⟩
      rintro b ⟨part, hpart, hb⟩
      simp only [List.mem_cons, List.not_mem_nil, or_false] at hpart
      rcases hpart with rfl | rfl | rfl | rfl | rfl
      · exact hbooted b hb
      · exact Console.decimal_ne_zero _ b hb
      · exact hof b hb
      · exact Console.decimal_ne_zero _ b hb
      · exact htotal b hb
  | ap i =>
      simp only [bootTexts, List.forall_mem_cons, List.not_mem_nil,
        IsEmpty.forall_iff, implies_true, and_true, List.mem_flatten]
      rintro b ⟨part, hpart, hb⟩
      simp only [List.mem_cons, List.not_mem_nil, or_false] at hpart
      rcases hpart with rfl | rfl | rfl
      · exact hfrom b hb
      · exact Console.decimal_ne_zero _ b hb
      · exact honline b hb

/-- Each step of `kmain` that is not in a print. -/
theorem bsp_goes (hw : WellPlaced K F) (hat : BspAt K F l s)
    (hreleased : Released K F s) (hregs : F.image.Reached l.regs)
    (hstep : runStep K F .bsp l s = some (.goes l' s')) :
    Advances K F s l' s' := by
  cases hplace : l.place with
  | check =>
      simp only [runStep, hplace] at hstep
      cases hstep
      exact bsp_check hplace hat
  | mmuInit =>
      rw [BspAt, hplace] at hat
      obtain ⟨hquiet, houtput, htables⟩ := hat
      simp only [runStep, hplace] at hstep
      cases hstep
      refine .quiet ⟨hquiet, houtput, ?_⟩ hquiet hquiet (fun _ => rfl) rfl rfl
      exact ⟨by rw [htables], by rw [htables]⟩
  | activate =>
      rw [BspAt, hplace] at hat
      obtain ⟨hquiet, houtput, hmapped⟩ := hat
      simp only [runStep, hplace] at hstep
      cases hstep
      refine .alone ⟨hquiet, houtput, hmapped, l.regs, hregs, ?_⟩
        hquiet.released
      rw [hmapped.globals]
  | heapInit =>
      rw [BspAt, hplace] at hat
      obtain ⟨hquiet, houtput, hmapped, hactive⟩ := hat
      simp only [runStep, hplace] at hstep
      cases hstep
      exact .quiet ⟨hquiet, houtput, ⟨hmapped.globals, hmapped.tables⟩, hactive,
        rfl⟩ hquiet hquiet (fun _ => rfl) rfl rfl
  | percoreInit =>
      simp only [runStep, hplace, Option.some.injEq, Next.goes.injEq] at hstep
      obtain ⟨rfl, rfl⟩ := hstep
      exact bsp_percoreInit hplace hat
  | find i => exact bsp_find hplace hat hstep
  | writeId self =>
      rw [BspAt, hplace] at hat
      obtain ⟨hquiet, houtput, hready, hactive, rfl⟩ := hat
      simp only [runStep, hplace] at hstep
      cases hstep
      refine .alone ⟨⟨hready, hactive, rfl⟩, ?_, rfl, fun j hj => ?_,
        fun j hj => ?_⟩ hquiet.released
      · rw [houtput]
        rfl
      · rw [hquiet j] at hj
        cases hj
      · exact absurd hj (Nat.not_lt_zero j)
  | extra self i => exact bsp_extra hplace hat hreleased hstep
  | release self i => exact bsp_release hplace hat hreleased hstep
  | prepare =>
      rw [BspAt, hplace] at hat
      obtain ⟨hup, hsaid, hsent⟩ := hat
      simp only [runStep, hplace, hup.banner hw] at hstep
      cases hstep
      refine .alone ⟨⟨hup.ready, hup.active, hup.tpidr⟩, ?_, hsent⟩ hreleased
      rw [hsaid]
      rfl
  | banner rest =>
      rw [BspAt, hplace] at hat
      obtain ⟨⟨hready, hactive, htpidr⟩, hsaid, hsent⟩ := hat
      cases rest with
      | nil =>
          simp only [runStep, hplace] at hstep
          cases hstep
          refine .alone ⟨⟨hready, hactive, htpidr⟩, ?_, hsent⟩ hreleased
          rw [← hsaid, List.append_nil]
      | cons text rest =>
          simp only [runStep, hplace] at hstep
          cases hstep
  | marker | threads | hang | fault | wild =>
      simp only [runStep, hplace] at hstep
      cases hstep
  | parked | apWriteId | apActivate | greet =>
      rw [BspAt, hplace] at hat
      exact hat.elim

/-- The places of the boot code that are in a print. -/
inductive PrintsAt (K : Kernel) (l : Local) : Console.Text → Place → Prop
  | marker (place : l.place = .marker) :
      PrintsAt K l (.of marker) .heapInit
  | banner {text : List UInt8} {rest : List (List UInt8)}
      (place : l.place = .banner (text :: rest)) :
      PrintsAt K l (.of text) (.banner rest)
  | greet {text : List UInt8} (place : l.place = .greet)
      (built : Console.printApGreeting K.digits K.line l.me = some text) :
      PrintsAt K l (.of text) .threads

theorem runStep_prints_iff {c : Cpu} {text : Console.Text} {place : Place} :
    runStep K F c l s = some (.prints text place) ↔ PrintsAt K l text place := by
  constructor
  · intro h
    cases hplace : l.place with
    | marker =>
        simp only [runStep, hplace] at h
        cases h
        exact .marker hplace
    | banner texts =>
        cases texts with
        | nil =>
            simp only [runStep, hplace] at h
            cases h
        | cons text rest =>
            simp only [runStep, hplace] at h
            cases h
            exact .banner hplace
    | greet =>
        simp only [runStep, hplace] at h
        split at h
        · cases h
        · next text hbuilt =>
          cases h
          exact .greet hplace hbuilt
    | find | prepare =>
        simp only [runStep, hplace] at h
        split at h
        all_goals cases h
    | extra self i =>
        simp only [runStep, hplace] at h
        split at h
        · split at h
          all_goals cases h
        · cases h
    | parked =>
        cases c with
        | bsp =>
            simp only [runStep, hplace] at h
            cases h
        | ap i =>
            simp only [runStep, hplace] at h
            split at h
            all_goals cases h
    | apWriteId =>
        cases c with
        | bsp | ap i =>
            simp only [runStep, hplace] at h
            cases h
    | _ =>
        simp only [runStep, hplace] at h
        cases h
  · intro h
    cases h with
    | marker hplace => simp only [runStep, hplace]
    | banner hplace => simp only [runStep, hplace]
    | greet hplace hbuilt => simp only [runStep, hplace, hbuilt]

/-- Each print of `kmain`: the UART is there, and where it goes on. -/
theorem bsp_prints {text : Console.Text} {place : Place}
    (hat : BspAt K F l s) (hreleased : Released K F s)
    (hprints : PrintsAt K l text place) :
    Mapped K F s ∧ Active K F l ∧ Advances K F s (l.goto place)
      { s with output := s.output ++ [(.bsp, text.bytes)] } := by
  have hclean := bootTexts_ne_zero F .bsp
  cases hprints with
  | marker hplace =>
      rw [BspAt, hplace] at hat
      obtain ⟨hquiet, houtput, hmapped, hactive⟩ := hat
      refine ⟨hmapped, hactive, .prints ⟨hquiet, ?_, ⟨hmapped.globals,
        hmapped.tables⟩, hactive⟩ hquiet.released⟩
      rw [houtput, Console.Text.bytes_of (hclean _ (List.mem_cons_self ..))]
      rfl
  | @banner text rest hplace =>
      rw [BspAt, hplace] at hat
      obtain ⟨⟨hready, hactive, htpidr⟩, hsaid, hsent⟩ := hat
      have hbytes : (Console.Text.of text).bytes = text := by
        refine Console.Text.bytes_of (hclean text ?_)
        rw [← hsaid]
        exact List.mem_append_right _ (List.mem_cons_self ..)
      rw [hbytes]
      refine ⟨hready.mapped, hactive, .prints
        ⟨⟨hready.print _, hactive, htpidr⟩, ?_, hsent⟩ hreleased⟩
      rw [saidBy_self, List.append_assoc]
      exact hsaid
  | greet hplace hbuilt =>
      rw [BspAt, hplace] at hat
      exact hat.elim

/-- What a core does once it is released: it prints, or the thread system
moves. -/
structure Later (c : Cpu) (s s' : Shared Sem) : Prop where
  globals : s'.globals = s.globals
  tables : s'.tables = s.tables
  idle : s'.idle = s.idle
  extraArgument : s'.extraArgument = s.extraArgument
  gotoAddress : s'.gotoAddress = s.gotoAddress
  output : s'.output = s.output ∨
    ∃ text, s'.output = s.output ++ [(c, text)]

theorem Later.refl (c : Cpu) (s : Shared Sem) : Later c s s :=
  ⟨rfl, rfl, rfl, rfl, rfl, .inl rfl⟩

theorem Later.prints (c : Cpu) (s : Shared Sem) (text : List UInt8) :
    Later c s { s with output := s.output ++ [(c, text)] } :=
  ⟨rfl, rfl, rfl, rfl, rfl, .inr ⟨text, rfl⟩⟩

theorem Later.said {c c' : Cpu} (h : Later c s s') (hne : c ≠ c') :
    saidBy c' s'.output = saidBy c' s.output := by
  rcases h.output with heq | ⟨text, heq⟩
  · rw [heq]
  · rw [heq, saidBy_other hne]

/-- A core does not take back what it has said. -/
theorem Later.said_self {c : Cpu} (h : Later c s s') :
    saidBy c s.output <+: saidBy c s'.output := by
  rcases h.output with heq | ⟨text, heq⟩
  · rw [heq]
  · rw [heq, saidBy_self]
    exact List.prefix_append ..

theorem Ready.later {c : Cpu} (h : Ready K F s) (hlater : Later c s s') :
    Ready K F s' := by
  refine ⟨⟨hlater.globals.trans h.mapped.globals,
    hlater.tables.trans h.mapped.tables⟩, ?_, hlater.idle.trans h.built, ?_⟩
  · rw [hlater.idle]
    exact h.idle
  · rcases hlater.output with heq | ⟨text, heq⟩
    · rw [heq]
      exact h.head
    · rw [heq]
      exact (h.print (c, text)).head

theorem Released.later {c : Cpu} (h : Released K F s)
    (hlater : Later c s s') : Released K F s' := by
  intro i hi
  rw [hlater.gotoAddress] at hi
  obtain ⟨hready, hlt, hne, hextra⟩ := h i hi
  rw [hlater.extraArgument]
  exact ⟨hready.later hlater, hlt, hne, hextra⟩

/-- A core that is not released yet does not see what the others do. -/
theorem ApAt.frame {i : Nat} (h : ApAt K F i l s)
    (hgone : s.gotoAddress i = true → s'.gotoAddress i = true)
    (hsaid : saidBy (.ap i) s'.output = saidBy (.ap i) s.output) :
    ApAt K F i l s' := by
  unfold ApAt at h ⊢
  rw [hsaid]
  cases hplace : l.place with
  | parked =>
      simp only [hplace] at h
      exact h
  | apWriteId | apActivate | greet | threads =>
      simp only [hplace] at h
      exact ⟨hgone h.1, h.2⟩
  | _ => simp only [hplace] at h

/-- Another core that runs has been released, so `kmain` is past that. -/
theorem BspAt.later {i : Nat} (h : BspAt K F l s)
    (hgone : s.gotoAddress i = true) (hlater : Later (.ap i) s s') :
    BspAt K F l s' := by
  have hloud : ¬ Quiet s := by
    intro hquiet
    rw [hquiet i] at hgone
    cases hgone
  have hup : Up K F l s → Up K F l s' := fun hup =>
    ⟨hup.ready.later hlater, hup.active, hup.tpidr⟩
  have hsaid : saidBy .bsp s'.output = saidBy .bsp s.output :=
    hlater.said (by simp)
  unfold BspAt at h ⊢
  simp only [hsaid, SentBelow, hlater.gotoAddress, hlater.extraArgument]
  cases hplace : l.place with
  | extra | release | prepare | banner | threads =>
      simp only [hplace] at h
      exact ⟨hup h.1, h.2⟩
  | check | mmuInit | activate | marker | heapInit | percoreInit | find
  | writeId | hang =>
      simp only [hplace] at h
      exact absurd h.1 hloud
  | _ => simp only [hplace] at h

/-- So does the greeting. -/
theorem Released.greeting {i : Nat} (hw : WellPlaced K F)
    (h : Released K F s) (hgone : s.gotoAddress i = true)
    (htpidr : l.tpidr = i) :
    Console.printApGreeting K.digits K.line l.me =
      some (bootTexts F (.ap i)).flatten := by
  obtain ⟨-, hlt, -, -⟩ := h i hgone
  have hcores : F.cpuCount ≤ 8 := hw.cores
  have hme : l.me = i := by
    rw [Local.me, htpidr]
    exact Nat.mod_eq_of_lt (by omega)
  rw [hme, Console.printApGreeting_eq _ _ (by omega)]
  simp [bootTexts, Console.greetingParts]

/-- Each step of `ap_entry` that is not in its print. -/
theorem ap_goes {i : Nat} (hw : WellPlaced K F) (hat : ApAt K F i l s)
    (hreleased : Released K F s) (hregs : F.image.Reached l.regs)
    (hstep : runStep K F (.ap i) l s = some (.goes l' s')) :
    ApAt K F i l' s' ∧ Later (.ap i) s s' ∧ s.gotoAddress i = true ∧
      s'.events = s.events ∧ s'.machine = s.machine := by
  cases hplace : l.place with
  | parked =>
      rw [ApAt, hplace] at hat
      simp only [runStep, hplace] at hstep
      split at hstep
      · next hgone =>
          cases hstep
          exact ⟨⟨hgone, hat⟩, .refl _ _, hgone, rfl, rfl⟩
      · cases hstep
  | apWriteId =>
      rw [ApAt, hplace] at hat
      obtain ⟨hgone, hsaid⟩ := hat
      simp only [runStep, hplace] at hstep
      cases hstep
      exact ⟨⟨hgone, hsaid, (hreleased i hgone).2.2.2⟩, .refl _ _, hgone, rfl,
        rfl⟩
  | apActivate =>
      rw [ApAt, hplace] at hat
      obtain ⟨hgone, hsaid, htpidr⟩ := hat
      simp only [runStep, hplace] at hstep
      cases hstep
      refine ⟨⟨hgone, hsaid, htpidr, l.regs, hregs, ?_⟩, .refl _ _, hgone, rfl,
        rfl⟩
      rw [(hreleased i hgone).1.mapped.globals]
  | greet =>
      rw [ApAt, hplace] at hat
      obtain ⟨hgone, hsaid, htpidr, hactive⟩ := hat
      simp only [runStep, hplace, hreleased.greeting hw hgone htpidr] at hstep
      cases hstep
  | threads =>
      simp only [runStep, hplace] at hstep
      cases hstep
  | _ =>
      rw [ApAt, hplace] at hat
      exact hat.elim

/-- The print of `ap_entry`. -/
theorem ap_prints {i : Nat} {text : Console.Text} {place : Place}
    (hw : WellPlaced K F) (hat : ApAt K F i l s) (hreleased : Released K F s)
    (hprints : PrintsAt K l text place) :
    s.gotoAddress i = true ∧ Active K F l ∧ ApAt K F i (l.goto place)
      { s with output := s.output ++ [(.ap i, text.bytes)] } := by
  cases hprints with
  | greet hplace hbuilt =>
      rw [ApAt, hplace] at hat
      obtain ⟨hgone, hsaid, htpidr, hactive⟩ := hat
      rw [hreleased.greeting hw hgone htpidr] at hbuilt
      cases hbuilt
      have hclean : ∀ b ∈ (bootTexts F (.ap i)).flatten, b ≠ 0 := by
        intro b hb
        obtain ⟨part, hpart, hmem⟩ := List.mem_flatten.mp hb
        exact bootTexts_ne_zero F (.ap i) part hpart b hmem
      refine ⟨hgone, hactive, hgone, ?_, htpidr, hactive⟩
      rw [Console.Text.bytes_of hclean, saidBy_self, hsaid]
      simp [bootTexts]
  | marker hplace | banner hplace =>
      rw [ApAt, hplace] at hat
      exact hat.elim

theorem output_percoreInit (s : Shared Sem) :
    (percoreInit K s).2.output = s.output := by
  rw [percoreInit]
  cases s.arena with
  | none => rfl
  | some mem =>
      rw [Option.elim_some]
      cases (Threads.idleBlocks (List.finRange kMaxCores)).foldlM
        (Threads.newBlock K.arena) (⟨mem, []⟩, fun _ => 0) with
      | none => rfl
      | some built => rfl

/-- A core in a print of its boot code is in no other print. -/
theorem Pends.text_eq {c : Cpu} {tty : Tty} {text : Console.Text} {place : Place}
    (h : Pends K F c l s tty) (hplace : l.place ≠ .threads)
    (hprints : PrintsAt K l text place) :
    ∀ text' ∈ (tty.callers c).pending, text' = text := by
  intro text' hmem
  obtain ⟨place', hstep⟩ := h hplace text' hmem
  rw [runStep_prints_iff.mpr hprints] at hstep
  cases hstep
  rfl

/-- What a step outside the prints leaves as it is. -/
theorem goes_frame {c : Cpu} (h : runStep K F c l s = some (.goes l' s')) :
    s'.output = s.output ∧ (l'.regs = l.regs ∨
      l'.regs = Mmu.activateThisCore s.globals l.regs) := by
  cases hplace : l.place with
  | percoreInit =>
      simp only [runStep, hplace, Option.some.injEq, Next.goes.injEq] at h
      obtain ⟨rfl, rfl⟩ := h
      exact ⟨output_percoreInit s, .inl rfl⟩
  | activate | apActivate =>
      simp only [runStep, hplace] at h
      cases h
      exact ⟨rfl, .inr rfl⟩
  | banner texts =>
      cases texts with
      | nil =>
          simp only [runStep, hplace] at h
          cases h
          exact ⟨rfl, .inl rfl⟩
      | cons text rest =>
          simp only [runStep, hplace] at h
          cases h
  | find | prepare | greet =>
      simp only [runStep, hplace] at h
      split at h
      all_goals cases h
      all_goals exact ⟨rfl, .inl rfl⟩
  | extra self i =>
      simp only [runStep, hplace] at h
      split at h
      · split at h
        all_goals cases h
        all_goals exact ⟨rfl, .inl rfl⟩
      · cases h
        exact ⟨rfl, .inl rfl⟩
  | parked =>
      cases c with
      | bsp =>
          simp only [runStep, hplace] at h
          cases h
      | ap i =>
          simp only [runStep, hplace] at h
          split at h
          all_goals cases h
          exact ⟨rfl, .inl rfl⟩
  | apWriteId =>
      cases c with
      | bsp =>
          simp only [runStep, hplace] at h
          cases h
      | ap i =>
          simp only [runStep, hplace] at h
          cases h
          exact ⟨rfl, .inl rfl⟩
  | check | mmuInit | heapInit | writeId | release =>
      simp only [runStep, hplace] at h
      cases h
      exact ⟨rfl, .inl rfl⟩
  | marker | threads | hang | fault | wild =>
      simp only [runStep, hplace] at h
      cases h

/-- A core that runs threads: it has its number and its entry of `g_table`,
and reaches the UART. -/
structure Serves (K : Kernel) (F : Firmware) (l : Local) (s : Shared Sem) :
    Prop where
  ready : Ready K F s
  active : Active K F l
  me_lt : l.me < kMaxCores

variable [DecidableEq Sem] {cnt : Sem → Int}

theorem Serves.thread (h : Serves K F l s) {action : Threads.Action Sem}
    (hstep : threadStep l s action = some (l', s')) (c : Cpu) :
    l' = l ∧ Later c s s' ∧ ∃ event, Threads.step ⟨l.me, h.me_lt⟩ action
      s.machine = some (event, s'.machine) ∧
      s'.events = s.events ++ event.toList := by
  rw [threadStep, dif_pos ⟨h.me_lt, h.ready.idle⟩] at hstep
  obtain ⟨⟨event, machine⟩, hthreads, heq⟩ := Option.map_eq_some_iff.mp hstep
  cases heq
  exact ⟨rfl, ⟨rfl, rfl, rfl, rfl, rfl, .inl rfl⟩, event, hthreads, rfl⟩

section

omit [DecidableEq Sem]

theorem Up.serves (hw : WellPlaced K F) (h : Up K F l s) : Serves K F l s := by
  have hself := self_lt hw
  refine ⟨h.ready, h.active, ?_⟩
  rw [Local.me, h.tpidr]
  exact Nat.lt_of_le_of_lt (Nat.mod_le ..) hself

theorem Released.serves {i : Nat} (hw : WellPlaced K F)
    (h : Released K F s) (hgone : s.gotoAddress i = true)
    (htpidr : l.tpidr = i) (hactive : Active K F l) : Serves K F l s := by
  obtain ⟨hready, hlt, -, -⟩ := h i hgone
  refine ⟨hready, hactive, ?_⟩
  rw [Local.me, htpidr]
  exact Nat.lt_of_le_of_lt (Nat.mod_le ..) (Nat.lt_of_lt_of_le hlt hw.cores)

end

/-- What a core can do next.  It is in the print of its boot code or in one of
a thread. -/
inductive Does (K : Kernel) (F : Firmware) (c : Cpu) (l : Local)
    (s : Shared Sem) (tty : Tty) : Local → Shared Sem → Tty → Prop
  | goes {l' : Local} {s' : Shared Sem} (place : l.place ≠ .threads)
      (run : runStep K F c l s = some (.goes l' s')) :
      Does K F c l s tty l' s' tty
  | boots {l' : Local} {s' : Shared Sem} {tty' : Tty} {text : Console.Text}
      {next : Place} (place : l.place ≠ .threads)
      (at_print : PrintsAt K l text next)
      (step : print F c l s tty text next = some (l', s', tty')) :
      Does K F c l s tty l' s' tty'
  | prints {l' : Local} {s' : Shared Sem} {tty' : Tty} {text : Console.Text}
      (place : l.place = .threads)
      (pending : ∀ text' ∈ (tty.callers c).pending, text' = text)
      (step : print F c l s tty text .threads = some (l', s', tty')) :
      Does K F c l s tty l' s' tty'
  | thread {l' : Local} {s' : Shared Sem} {action : Threads.Action Sem}
      (place : l.place = .threads) (idle : (tty.callers c).pending = [])
      (step : threadStep l s action = some (l', s')) :
      Does K F c l s tty l' s' tty

theorem Does.of_step {c : Cpu} {tty tty' : Tty} {action : Action Sem}
    (h : coreStep K F c l s tty action = some (l', s', tty')) :
    Does K F c l s tty l' s' tty' := by
  cases action with
  | run =>
      rw [coreStep] at h
      obtain ⟨does, hnext, hdoes⟩ := Option.bind_eq_some_iff.mp h
      rw [next] at hnext
      split at hnext
      next hplace =>
        obtain ⟨text, hhead, rfl⟩ := Option.map_eq_some_iff.mp hnext
        refine .prints hplace (fun text' hmem => ?_) hdoes
        cases hcaller : tty.callers c with
        | outside =>
            rw [hcaller] at hmem
            cases hmem
        | spins call | inside call place =>
            rw [hcaller] at hmem hhead
            cases hhead
            exact List.mem_singleton.mp hmem
      next hplace =>
        cases does with
        | goes l₁ s₁ =>
            cases hdoes
            exact .goes hplace hnext
        | prints text place =>
            exact .boots hplace (runStep_prints_iff.mp hnext) hdoes
  | thread action =>
      rw [coreStep] at h
      split at h
      next hidle =>
        obtain ⟨⟨l₁, s₁⟩, hstep, heq⟩ := Option.map_eq_some_iff.mp h
        cases heq
        exact .thread hidle.1 hidle.2 hstep
      next => cases h
  | print text =>
      rw [coreStep] at h
      split at h
      next hidle =>
        refine .prints hidle.1 (fun text' hmem => ?_) h
        rw [hidle.2] at hmem
        cases hmem
      next => cases h

/-- A core that runs threads, in a print or not. -/
theorem Serves.step (hw : WellPlaced K F) (h : Serves K F l s)
    (hplace : l.place = .threads) {c : Cpu} {tty tty' : Tty}
    (hdoes : Does K F c l s tty l' s' tty')
    (hrun : Threads.AnyRun cnt s.events s.machine) :
    l' = l ∧ Later c s s' ∧ Threads.AnyRun cnt s'.events s'.machine := by
  cases hdoes with
  | goes place run => exact absurd hplace place
  | boots place at_print step => exact absurd hplace place
  | prints place pending step =>
      have huart := uart_of_active hw h.ready.mapped h.active
      cases Prints.of_print huart pending step with
      | goesOn => exact ⟨rfl, .refl c s, hrun⟩
      | returns =>
          refine ⟨?_, .prints c s _, hrun⟩
          rw [Local.goto, ← hplace]
  | thread place idle step =>
      obtain ⟨hlocal, hlater, event, hthreads, hevents⟩ := h.thread step c
      rw [hevents]
      exact ⟨hlocal, hlater, hrun.step trivial hthreads⟩

variable {st : State Sem} {c : Cpu} {tty' : Tty}

/-- A step of the bootstrap processor in front of its threads. -/
theorem Inv.advances (hw : WellPlaced K F) (h : Inv K F cnt st)
    (hplace : (st.locals .bsp).place ≠ .threads)
    (hdoes : Does K F .bsp (st.locals .bsp) st.shared st.tty l' s' tty') :
    Advances K F st.shared l' s' := by
  cases hdoes with
  | goes place run => exact bsp_goes hw h.bsp h.released (h.regs .bsp) run
  | boots place at_print step =>
      obtain ⟨hmapped, hactive, hafter⟩ := bsp_prints h.bsp h.released at_print
      cases Prints.of_print (uart_of_active hw hmapped hactive)
        ((h.pends .bsp).text_eq place at_print) step with
      | goesOn => exact .alone h.bsp h.released
      | returns => exact hafter
  | prints place => exact absurd place hplace
  | thread place => exact absurd place hplace

/-- A step of another core in front of its threads. -/
theorem Inv.ap_advances (hw : WellPlaced K F) (h : Inv K F cnt st) {i : Nat}
    (hplace : (st.locals (.ap i)).place ≠ .threads)
    (hdoes : Does K F (.ap i) (st.locals (.ap i)) st.shared st.tty l' s' tty') :
    ApAt K F i l' s' ∧ Later (.ap i) st.shared s' ∧
      st.shared.gotoAddress i = true ∧ s'.events = st.shared.events ∧
      s'.machine = st.shared.machine := by
  cases hdoes with
  | goes place run =>
      exact ap_goes hw (h.ap i) h.released (h.regs (.ap i)) run
  | boots place at_print step =>
      obtain ⟨hgone, hactive, hafter⟩ :=
        ap_prints hw (h.ap i) h.released at_print
      have hmapped := (h.released i hgone).1.mapped
      cases Prints.of_print (uart_of_active hw hmapped hactive)
        ((h.pends (.ap i)).text_eq place at_print) step with
      | goesOn => exact ⟨h.ap i, .refl _ _, hgone, rfl, rfl⟩
      | returns => exact ⟨hafter, .prints _ _ _, hgone, rfl, rfl⟩
  | prints place => exact absurd place hplace
  | thread place => exact absurd place hplace

/-- The UART is there for every core that is in a print. -/
theorem Inv.uart_boots (hw : WellPlaced K F) (h : Inv K F cnt st)
    {text : Console.Text} {place : Place}
    (hprints : PrintsAt K (st.locals c) text place) :
    uartMapped (st.locals c) st.shared := by
  cases c with
  | bsp =>
      obtain ⟨hmapped, hactive, -⟩ := bsp_prints h.bsp h.released hprints
      exact uart_of_active hw hmapped hactive
  | ap i =>
      obtain ⟨hgone, hactive, -⟩ := ap_prints hw (h.ap i) h.released hprints
      exact uart_of_active hw (h.released i hgone).1.mapped hactive

theorem Inv.serves (hw : WellPlaced K F) (h : Inv K F cnt st)
    (hplace : (st.locals c).place = .threads) :
    Serves K F (st.locals c) st.shared := by
  cases c with
  | bsp =>
      have hat := h.bsp
      rw [BspAt, hplace] at hat
      exact hat.1.serves hw
  | ap i =>
      have hat := h.ap i
      rw [ApAt, hplace] at hat
      obtain ⟨hgone, -, htpidr, hactive⟩ := hat
      exact h.released.serves hw hgone htpidr hactive

/-- What a step of a core does to the console: nothing, or it goes on with its
print. -/
theorem Inv.touches (hw : WellPlaced K F) (h : Inv K F cnt st)
    (hdoes : Does K F c (st.locals c) st.shared st.tty l' s' tty') :
    (tty' = st.tty ∧ s'.output = st.shared.output ∧
      (st.tty.callers c).pending = []) ∨
    ∃ text next, Prints F c (st.locals c) st.shared st.tty text next l' s'
      tty' ∧ ((st.locals c).place ≠ .threads →
        PrintsAt K (st.locals c) text next) := by
  cases hdoes with
  | goes place run =>
      refine .inl ⟨rfl, (goes_frame run).1, ?_⟩
      refine List.eq_nil_iff_forall_not_mem.mpr fun text hmem => ?_
      obtain ⟨place', hprints⟩ := h.pends c place text hmem
      rw [run] at hprints
      cases hprints
  | boots place at_print step =>
      exact .inr ⟨_, _, .of_print (h.uart_boots hw at_print)
        ((h.pends c).text_eq place at_print) step, fun _ => at_print⟩
  | prints place pending step =>
      obtain ⟨hready, hactive, -⟩ := h.serves hw place
      exact .inr ⟨_, _, .of_print (uart_of_active hw hready.mapped hactive)
        pending step, fun hplace => absurd place hplace⟩
  | thread place idle step =>
      obtain ⟨-, -, event, -, -⟩ := (h.serves hw place).thread step c
      rw [threadStep] at step
      refine .inl ⟨rfl, ?_, idle⟩
      split at step
      · obtain ⟨⟨event, machine⟩, -, heq⟩ := Option.map_eq_some_iff.mp step
        cases heq
        rfl
      · cases step
        rfl

section

omit [DecidableEq Sem]

/-- A print of the boot code does not look at what the cores share. -/
theorem Pends.congr {tty : Tty} (h : Pends K F c l s tty)
    (hcaller : tty'.callers c = tty.callers c) : Pends K F c l s' tty' := by
  intro hplace text hmem
  rw [hcaller] at hmem
  obtain ⟨place, hprints⟩ := h hplace text hmem
  exact ⟨place, runStep_prints_iff.mpr (runStep_prints_iff.mp hprints)⟩

end

theorem Inv.pends_step (hw : WellPlaced K F) (h : Inv K F cnt st)
    (hdoes : Does K F c (st.locals c) st.shared st.tty l' s' tty')
    (c' : Cpu) : Pends K F c' ((st.set c l' s' tty').locals c') s' tty' := by
  by_cases hc : c' = c
  · subst hc
    rw [st.set_self]
    obtain ⟨rfl, -, hidle⟩ | ⟨text, next, hprints, hat⟩ := h.touches hw hdoes
    · intro _ text hmem
      rw [hidle] at hmem
      cases hmem
    · cases hprints with
      | goesOn step pending =>
          intro hplace text' hmem
          rw [pending] at hmem
          obtain rfl := List.mem_singleton.mp hmem
          exact ⟨next, runStep_prints_iff.mpr (hat hplace)⟩
      | returns step pending =>
          intro _ text' hmem
          rw [pending] at hmem
          cases hmem
  · rw [st.set_of_ne hc]
    refine (h.pends c').congr ?_
    obtain ⟨rfl, -⟩ | ⟨text, next, hprints, -⟩ := h.touches hw hdoes
    · rfl
    · exact hprints.run.2 c' hc

theorem Inv.logged_step (hw : WellPlaced K F) (h : Inv K F cnt st)
    (hdoes : Does K F c (st.locals c) st.shared st.tty l' s' tty') :
    Logged F s' tty' := by
  obtain ⟨uart, calls, log, houtput, hrun⟩ := h.logged
  obtain ⟨rfl, hsame, -⟩ | ⟨text, next, hprints, -⟩ := h.touches hw hdoes
  · exact ⟨uart, calls, log, hsame.trans houtput, hrun⟩
  · obtain ⟨⟨calls', log', hstep, hmore⟩, -⟩ := hprints.run
    refine ⟨uart, calls ++ calls', log ++ log', ?_, hrun.step hstep⟩
    rw [hmore, houtput, lines, lines, lines, List.map_append]

section

omit [DecidableEq Sem]

theorem regs_print {tty : Tty} {text : Console.Text} {next : Place}
    (h : print F c l s tty text next = some (l', s', tty')) :
    l'.regs = l.regs := by
  rw [print] at h
  split at h
  · obtain ⟨⟨calls, log, tty''⟩, -, heq⟩ := Option.map_eq_some_iff.mp h
    cases heq
    split <;> rfl
  · cases h
    rfl

end

/-- Each core keeps the fields of its registers that it relies on. -/
theorem Does.reached {tty : Tty} (h : Does K F c l s tty l' s' tty')
    (hregs : F.image.Reached l.regs) : F.image.Reached l'.regs := by
  cases h with
  | goes place run =>
      obtain ⟨-, hsame | hactive⟩ := goes_frame run
      · rwa [hsame]
      · rw [hactive]
        exact hregs.activated _
  | boots place at_print step => rwa [regs_print step]
  | prints place pending step => rwa [regs_print step]
  | thread place idle step =>
      rw [threadStep] at step
      split at step
      · obtain ⟨⟨event, machine⟩, -, heq⟩ := Option.map_eq_some_iff.mp step
        cases heq
        exact hregs
      · cases step
        exact hregs

theorem Inv.regs_step (h : Inv K F cnt st)
    (hdoes : Does K F c (st.locals c) st.shared st.tty l' s' tty')
    (c' : Cpu) : F.image.Reached ((st.set c l' s' tty').locals c').regs := by
  by_cases hc : c' = c
  · subst hc
    rw [st.set_self]
    exact hdoes.reached (h.regs c')
  · rw [st.set_of_ne hc]
    exact h.regs c'

/-- A step of the bootstrap processor. -/
theorem Inv.bsp_step (hw : WellPlaced K F) (h : Inv K F cnt st)
    (hdoes : Does K F .bsp (st.locals .bsp) st.shared st.tty l' s' tty') :
    Inv K F cnt (st.set .bsp l' s' tty') := by
  have hafter : BspAt K F l' s' → Released K F s' →
      (∀ i, st.shared.gotoAddress i = true → s'.gotoAddress i = true) →
      (∀ i, saidBy (.ap i) s'.output = saidBy (.ap i) st.shared.output) →
      Threads.AnyRun cnt s'.events s'.machine →
      Inv K F cnt (st.set .bsp l' s' tty') := by
    intro hat hreleased hgone hsaid hrun
    refine ⟨by rwa [st.set_self], fun i => ?_, hreleased, h.regs_step hdoes,
      h.pends_step hw hdoes, h.logged_step hw hdoes, hrun⟩
    rw [st.set_of_ne (by simp)]
    exact (h.ap i).frame (hgone i) (hsaid i)
  by_cases hplace : (st.locals .bsp).place = .threads
  · have hat := h.bsp
    rw [BspAt, hplace] at hat
    obtain ⟨hup, hsaid, hsent⟩ := hat
    obtain ⟨rfl, hlater, hrun⟩ := (hup.serves hw).step hw hplace hdoes h.run
    refine hafter ?_ (h.released.later hlater) (fun i hgone => ?_)
      (fun i => hlater.said (by simp)) hrun
    · rw [BspAt, hplace]
      refine ⟨⟨hup.ready.later hlater, hup.active, hup.tpidr⟩,
        hsaid.trans hlater.said_self, ?_⟩
      rwa [SentBelow, hlater.gotoAddress]
    · rwa [hlater.gotoAddress]
  · have hadvances := h.advances hw hplace hdoes
    apply hafter hadvances.place hadvances.released hadvances.gone
      hadvances.said
    rw [hadvances.events, hadvances.machine]
    exact h.run

/-- A step of another core. -/
theorem Inv.ap_step {i : Nat} (hw : WellPlaced K F) (h : Inv K F cnt st)
    (hdoes : Does K F (.ap i) (st.locals (.ap i)) st.shared st.tty l' s' tty') :
    Inv K F cnt (st.set (.ap i) l' s' tty') := by
  have hafter : ApAt K F i l' s' → Later (.ap i) st.shared s' →
      st.shared.gotoAddress i = true →
      Threads.AnyRun cnt s'.events s'.machine →
      Inv K F cnt (st.set (.ap i) l' s' tty') := by
    intro hat hlater hgone hrun
    refine ⟨?_, fun j => ?_, h.released.later hlater, h.regs_step hdoes,
      h.pends_step hw hdoes, h.logged_step hw hdoes, hrun⟩
    · rw [st.set_of_ne (by simp)]
      exact h.bsp.later hgone hlater
    · by_cases hj : j = i
      · rw [hj, st.set_self]
        exact hat
      · rw [st.set_of_ne (by simpa using hj)]
        refine (h.ap j).frame (fun hgone' => ?_)
          (hlater.said (by simpa using Ne.symm hj))
        rwa [st.set_shared, hlater.gotoAddress]
  by_cases hplace : (st.locals (.ap i)).place = .threads
  · have hat := h.ap i
    rw [ApAt, hplace] at hat
    obtain ⟨hgone, hsaid, htpidr, hactive⟩ := hat
    have hserves := h.released.serves hw hgone htpidr hactive
    obtain ⟨rfl, hlater, hrun⟩ := hserves.step hw hplace hdoes h.run
    refine hafter ?_ hlater hgone hrun
    rw [ApAt, hplace, hlater.gotoAddress]
    exact ⟨hgone, hsaid.trans hlater.said_self, htpidr, hactive⟩
  · obtain ⟨hat, hlater, hgone, hevents, hmachine⟩ :=
      h.ap_advances hw hplace hdoes
    apply hafter hat hlater hgone
    rw [hevents, hmachine]
    exact h.run

theorem Inv.init (tpidr : Cpu → Nat) {regs : Cpu → Regs}
    (hregs : ∀ c, F.image.Reached (regs c)) (globals : Mmu.Globals)
    (extraArgument : Nat → Nat) (uart : Console.Uart) :
    Inv K F cnt (initial K cnt tpidr regs globals extraArgument uart) where
  bsp := ⟨fun _ => rfl, rfl, rfl⟩
  ap _ := rfl
  released := Quiet.released fun _ => rfl
  regs c := by cases c <;> exact hregs _
  pends _ _ _ hmem := by cases hmem
  logged := ⟨uart, [], [], rfl, .init⟩
  run := .boot

/-- The UART moves by itself. -/
theorem Inv.uart_step (h : Inv K F cnt st) {st' : State Sem}
    (hstep : step K F st .uart = some st') : Inv K F cnt st' := by
  obtain ⟨⟨calls', log', tty⟩, hmove, rfl⟩ := Option.map_eq_some_iff.mp hstep
  have hcallers (c : Cpu) : tty.callers c = st.tty.callers c :=
    (Monitor.Does.of_step hmove).callers_of_ne (by simp [Monitor.Action.core])
  obtain ⟨uart, calls, log, houtput, hrun⟩ := h.logged
  refine ⟨h.bsp, h.ap, h.released, h.regs,
    fun c => (h.pends c).congr (hcallers c), ⟨uart, calls ++ calls', log, ?_⟩,
    h.run⟩
  have hended : log' = [] := by
    cases Monitor.Does.of_step hmove
    rfl
  have hnext := hrun.step hmove
  rw [hended, List.append_nil] at hnext
  exact ⟨houtput, hnext⟩

theorem Run.inv (hw : WellPlaced K F) (h : Run K F cnt st) :
    Inv K F cnt st := by
  induction h with
  | init tpidr reached globals extraArgument uart =>
      exact .init tpidr reached globals extraArgument uart
  | @step st st' turn before present step ih =>
      cases turn with
      | uart => exact ih.uart_step step
      | core c action =>
          obtain ⟨⟨l', s', tty'⟩, hstep, rfl⟩ :=
            Option.map_eq_some_iff.mp step
          cases c with
          | bsp => exact ih.bsp_step hw (.of_step hstep)
          | ap i => exact ih.ap_step hw (.of_step hstep)

end Boot

end IntroOs
