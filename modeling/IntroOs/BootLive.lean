/-
The boot goes on.  Outside of a print the boot code of a core waits for
nothing but to be released, and the print behind the console's lock comes to
its end as long as its core and the UART get their turns.  That leaves the
lock itself, which is not fair.
-/
import IntroOs.BootInv
import IntroOs.Progress

namespace IntroOs

namespace Boot

open Progress

variable {Sem : Type} {K : Kernel} {F : Firmware} {l l' : Local}
  {s s' : Shared Sem}

/-- How many steps and prints of the boot code are ahead at a place, at
most. -/
def rank (n : Nat) : Place → Nat
  | .check => 14 + 3 * n
  | .mmuInit => 13 + 3 * n
  | .activate => 12 + 3 * n
  | .marker => 11 + 3 * n
  | .heapInit => 10 + 3 * n
  | .percoreInit => 9 + 3 * n
  | .find i => 8 + 2 * n + (n - i)
  | .writeId _ => 7 + 2 * n
  | .extra _ i => 6 + 2 * (n - i)
  | .release _ i => 5 + 2 * (n - i)
  | .prepare => 5
  | .banner rest => 1 + rest.length
  | .parked => 4
  | .apWriteId => 3
  | .apActivate => 2
  | .greet => 1
  | .threads | .hang | .fault | .wild => 0

theorem PrintsAt.rank_lt {text : Console.Text} {place : Place}
    (h : PrintsAt K l text place) (n : Nat) : rank n place < rank n l.place := by
  cases h with
  | marker hplace => simp [hplace, rank]
  | banner hplace => simp [hplace, rank]
  | greet hplace hbuilt => simp [hplace, rank]

/-- The boot code of the core goes on, and has less ahead of it, or it is in a
print. -/
def Falls (K : Kernel) (F : Firmware) (c : Cpu) (l : Local)
    (s : Shared Sem) : Prop :=
  (∃ l' s', runStep K F c l s = some (.goes l' s') ∧
    rank F.cpuCount l'.place < rank F.cpuCount l.place) ∨
  ∃ text place, PrintsAt K l text place

/-- `kmain` does not wait for anything outside of its prints. -/
theorem BspAt.falls (hw : WellPlaced K F) (hanswers : F.Answers)
    (h : BspAt K F l s) (hplace : l.place ≠ .threads) :
    Falls K F .bsp l s := by
  have hgoes {l' s'} (hrun : runStep K F .bsp l s = some (.goes l' s'))
      (hlt : rank F.cpuCount l'.place < rank F.cpuCount l.place) :
      Falls K F .bsp l s := .inl ⟨l', s', hrun, hlt⟩
  cases hat : l.place with
  | check =>
      refine hgoes (by simp only [runStep, hat]; rfl) ?_
      simp only [if_pos hanswers, Local.goto, rank, hat]
      omega
  | mmuInit | activate | heapInit | writeId =>
      refine hgoes (by simp only [runStep, hat]; rfl) ?_
      simp only [Local.goto, rank, hat]
      omega
  | marker => exact .inr ⟨_, _, .marker hat⟩
  | percoreInit =>
      rw [BspAt, hat] at h
      obtain ⟨built, -, hbuilt⟩ := percoreInit_eq h.2.2.2.2
      refine hgoes (by simp only [runStep, hat]; rfl) ?_
      simp only [hbuilt, Local.goto, rank, hat]
      omega
  | find i =>
      by_cases hi : i < F.cpuCount
      · refine hgoes (by simp only [runStep, hat, if_pos hi]; rfl) ?_
        simp only [Local.goto, hat]
        split <;> simp only [rank] <;> omega
      · refine hgoes (by simp only [runStep, hat, if_neg hi]; rfl) ?_
        simp only [Local.goto, rank, hat]
        omega
  | extra self i =>
      by_cases hi : i < F.cpuCount
      · by_cases hself : i = self
        · refine hgoes (by
            simp only [runStep, hat, if_pos hi, if_pos hself]; rfl) ?_
          simp only [Local.goto, rank, hat]
          omega
        · refine hgoes (by
            simp only [runStep, hat, if_pos hi, if_neg hself]; rfl) ?_
          simp only [Local.goto, rank, hat]
          omega
      · refine hgoes (by simp only [runStep, hat, if_neg hi]; rfl) ?_
        simp only [Local.goto, rank, hat]
        omega
  | release self i =>
      rw [BspAt, hat] at h
      obtain ⟨-, -, -, -, hi, -⟩ := h
      refine hgoes (by simp only [runStep, hat]; rfl) ?_
      simp only [Local.goto, rank, hat]
      omega
  | prepare =>
      rw [BspAt, hat] at h
      refine hgoes (by simp only [runStep, hat, h.1.banner hw]; rfl) ?_
      simp [Local.goto, rank, bootTexts, hat]
  | banner rest =>
      cases rest with
      | nil =>
          refine hgoes (by simp only [runStep, hat]; rfl) ?_
          simp [Local.goto, rank, hat]
      | cons text rest => exact .inr ⟨_, _, .banner hat⟩
  | threads => exact absurd hat hplace
  | hang =>
      rw [BspAt, hat] at h
      exact absurd hanswers h.2.2
  | _ =>
      rw [BspAt, hat] at h
      exact h.elim

/-- Once it is released, a core does not wait for anything either. -/
theorem ApAt.falls {i : Nat} (hw : WellPlaced K F) (h : ApAt K F i l s)
    (hreleased : Released K F s) (hgone : s.gotoAddress i = true)
    (hplace : l.place ≠ .threads) : Falls K F (.ap i) l s := by
  have hgoes {l' s'} (hrun : runStep K F (.ap i) l s = some (.goes l' s'))
      (hlt : rank F.cpuCount l'.place < rank F.cpuCount l.place) :
      Falls K F (.ap i) l s := .inl ⟨l', s', hrun, hlt⟩
  cases hat : l.place with
  | parked =>
      refine hgoes (by simp only [runStep, hat, if_pos hgone]; rfl) ?_
      simp [Local.goto, rank, hat]
  | apWriteId | apActivate =>
      refine hgoes (by simp only [runStep, hat]; rfl) ?_
      simp [rank, hat]
  | greet =>
      rw [ApAt, hat] at h
      exact .inr ⟨_, _, .greet hat (hreleased.greeting hw hgone h.2.2.1)⟩
  | threads => exact absurd hat hplace
  | _ =>
      rw [ApAt, hat] at h
      exact h.elim

/-- Nothing holds the core back: it is the bootstrap processor, or released. -/
def Free (c : Cpu) (st : State Sem) : Prop :=
  ∀ i, c = .ap i → st.shared.gotoAddress i = true

variable [DecidableEq Sem] {cnt : Sem → Int} {st st' : State Sem} {c : Cpu}

theorem Inv.falls (hw : WellPlaced K F) (hanswers : F.Answers)
    (h : Inv K F cnt st) (hfree : Free c st)
    (hplace : (st.locals c).place ≠ .threads) :
    Falls K F c (st.locals c) st.shared := by
  cases c with
  | bsp => exact h.bsp.falls hw hanswers hplace
  | ap i => exact (h.ap i).falls hw h.released (hfree i rfl) hplace

/-- The turns of the others leave a core where it is. -/
theorem Inv.others (hw : WellPlaced K F) (h : Inv K F cnt st)
    {turn : Turn Sem} (hstep : step K F st turn = some st')
    (hother : ∀ action, turn ≠ .core c action) :
    st'.locals c = st.locals c ∧ st'.tty.callers c = st.tty.callers c := by
  cases turn with
  | uart =>
      obtain ⟨⟨calls, log, tty⟩, hmove, rfl⟩ := Option.map_eq_some_iff.mp hstep
      refine ⟨rfl, (Monitor.Does.of_step hmove).callers_of_ne ?_⟩
      intro hcore
      cases hcore
  | core c' action =>
      obtain ⟨⟨l', s', tty'⟩, hcore, rfl⟩ := Option.map_eq_some_iff.mp hstep
      have hc : c ≠ c' := by
        rintro rfl
        exact hother action rfl
      refine ⟨st.set_of_ne hc .., ?_⟩
      obtain ⟨rfl, -⟩ | ⟨text, next, hprints, -⟩ :=
        h.touches hw (.of_step hcore)
      · rfl
      · exact hprints.run.2 c hc

/-- A core in its boot code or in a print does nothing else. -/
theorem run_of_busy {tty : Tty} {action : Action Sem}
    (hbusy : l.place ≠ .threads ∨ (tty.callers c).pending ≠ [])
    (h : coreStep K F c l s tty action ≠ none) : action = .run := by
  have hidle : ¬ (l.place = .threads ∧ (tty.callers c).pending = []) :=
    fun hidle => hbusy.elim (fun h => h hidle.1) fun h => h hidle.2
  cases action with
  | run => rfl
  | thread action =>
      rw [coreStep, if_neg hidle] at h
      exact absurd rfl h
  | print text =>
      rw [coreStep, if_neg hidle] at h
      exact absurd rfl h

/-- Such a core goes on in its own turns only. -/
theorem Inv.keeps (hw : WellPlaced K F) (h : Inv K F cnt st)
    {turn : Turn Sem} (hstep : step K F st turn = some st')
    (hturn : turn ≠ .core c .run)
    (hbusy : (st.locals c).place ≠ .threads ∨
      (st.tty.callers c).pending ≠ []) :
    st'.locals c = st.locals c ∧ st'.tty.callers c = st.tty.callers c := by
  refine h.others hw hstep fun action heq => hturn ?_
  subst heq
  obtain ⟨result, hcore, -⟩ := Option.map_eq_some_iff.mp hstep
  have hrun := run_of_busy hbusy (by rw [hcore]; exact Option.some_ne_none _)
  rw [hrun]

/-- The core behind the lock is the only one there. -/
theorem Inv.only (h : Inv K F cnt st) {text : Console.Text}
    {place : Console.Place} (hinside : st.tty.callers c = .inside text place) :
    st.tty.locked = true ∧ ∀ c' text' place',
      st.tty.callers c' = .inside text' place' → c' = c := by
  obtain ⟨uart, calls, log, -, hrun⟩ := h.logged
  obtain ⟨hlocked, -, honly⟩ := (Console.hold_of_run hrun).inside hinside
  exact ⟨hlocked, honly⟩

/-- The other cores do not touch the UART while a core is behind the lock. -/
theorem Inv.keeps_uart (hw : WellPlaced K F) (h : Inv K F cnt st)
    {turn : Turn Sem} (hstep : step K F st turn = some st')
    (hturn : turn ≠ .core c .run) (huart : turn ≠ .uart) {text : Console.Text}
    {place : Console.Place} (hinside : st.tty.callers c = .inside text place) :
    st'.tty.shared = st.tty.shared := by
  obtain ⟨hlocked, honly⟩ := h.only hinside
  cases turn with
  | uart => exact absurd rfl huart
  | core c' action =>
      obtain ⟨⟨l', s', tty'⟩, hcore, rfl⟩ := Option.map_eq_some_iff.mp hstep
      obtain ⟨rfl, -⟩ | ⟨text', next, hprints, -⟩ :=
        h.touches hw (.of_step hcore)
      · rfl
      obtain ⟨⟨calls, log, hmonitor, -⟩, -⟩ := hprints.run
      have hof := core_printAction c' text' st.tty
      generalize printAction c' text' st.tty = act at hof hmonitor
      have hself (hc : c' = c) : action = .run := by
        subst hc
        refine run_of_busy (.inr ?_)
          (by rw [hcore]; exact Option.some_ne_none _)
        rw [hinside]
        exact List.cons_ne_nil text []
      cases Monitor.Does.of_step hmonitor with
      | early outside start => cases start
      | begins outside start =>
          cases start
          rfl
      | enters spins isFree =>
          rw [hlocked] at isFree
          cases isFree
      | goesOn inside step | returns inside step =>
          obtain rfl := honly _ _ _ inside
          obtain rfl := Option.some.inj hof
          exact absurd (by rw [hself rfl]) hturn
      | moves moved => cases hof

/-- The print a core is in: the one of its boot code, or one of a thread. -/
inductive InPrint (K : Kernel) (l : Local) (calls : List Console.Text)
    (text : Console.Text) : Place → Prop
  | boots {place : Place} (at_print : PrintsAt K l text place) :
      InPrint K l calls text place
  | thread (place : l.place = .threads) (pending : calls = [text]) :
      InPrint K l calls text .threads

theorem Inv.inPrint (h : Inv K F cnt st) {text : Console.Text}
    (hpending : (st.tty.callers c).pending = [text]) :
    ∃ place, InPrint K (st.locals c) (st.tty.callers c).pending text place := by
  by_cases hplace : (st.locals c).place = .threads
  · exact ⟨.threads, .thread hplace hpending⟩
  · obtain ⟨place, hprints⟩ := h.pends c hplace text
      (by rw [hpending]; exact List.mem_singleton_self text)
    exact ⟨place, .boots (runStep_prints_iff.mp hprints)⟩

section

omit [DecidableEq Sem]

theorem PrintsAt.place_ne {text : Console.Text} {place : Place}
    (h : PrintsAt K l text place) : l.place ≠ .threads := by
  intro hthreads
  cases h with
  | marker hplace | banner hplace | greet hplace =>
      rw [hthreads] at hplace
      cases hplace

end

/-- A turn of a core in a print is a step of the console. -/
theorem Inv.step_print (hw : WellPlaced K F) (h : Inv K F cnt st)
    {text : Console.Text} {place : Place}
    (hin : InPrint K (st.locals c) (st.tty.callers c).pending text place) :
    step K F st (.core c .run) =
      (Monitor.step (Console.print Cpu F.fifoDepth) st.tty
        (printAction c text st.tty)).map fun (_, log, tty) =>
          st.set c (if log.isEmpty then st.locals c
              else (st.locals c).goto place)
            { st.shared with output := st.shared.output ++ lines log } tty := by
  have hboth : next K F c (st.locals c) st.shared st.tty =
        some (.prints text place) ∧ uartMapped (st.locals c) st.shared := by
    cases hin with
    | boots at_print =>
        refine ⟨?_, h.uart_boots hw at_print⟩
        rw [next, if_neg at_print.place_ne, runStep_prints_iff.mpr at_print]
    | thread place pending =>
        obtain ⟨hready, hactive, -⟩ := h.serves hw place
        refine ⟨?_, uart_of_active hw hready.mapped hactive⟩
        rw [next, if_pos place, pending]
        rfl
  obtain ⟨hnext, huart⟩ := hboth
  rw [step, coreStep, hnext]
  show (print F c (st.locals c) st.shared st.tty text place).map _ = _
  rw [print, if_pos huart, Option.map_map]
  rfl

/-- A turn of the core behind the lock, in front of the end of its print. -/
theorem Inv.run_goesOn (hw : WellPlaced K F) (h : Inv K F cnt st)
    {text : Console.Text} {place place' : Console.Place} {u : Console.Uart}
    (hinside : st.tty.callers c = .inside text place)
    (hprint : Console.printStep F.fifoDepth place st.tty.shared =
      (.inl place', u)) :
    ∃ st', step K F st (.core c .run) = some st' ∧
      st'.locals c = st.locals c ∧ st'.tty.callers c = .inside text place' ∧
      st'.tty.shared = u := by
  have hpending : (st.tty.callers c).pending = [text] := by
    rw [hinside]
    rfl
  obtain ⟨next, hin⟩ := h.inPrint hpending
  have haction : printAction c text st.tty = .step c := by
    rw [printAction, hinside]
  have hstep := h.step_print hw hin
  rw [haction, Monitor.step_goesOn hinside hprint, Option.map_some] at hstep
  exact ⟨_, hstep, st.set_self .., Monitor.State.set_self .., rfl⟩

/-- And at its end. -/
theorem Inv.run_returns (hw : WellPlaced K F) (h : Inv K F cnt st)
    {text : Console.Text}
    (hinside : st.tty.callers c = .inside text (.test [])) :
    ∃ st' place, step K F st (.core c .run) = some st' ∧
      InPrint K (st.locals c) [text] text place ∧
      st'.locals c = (st.locals c).goto place ∧
      st'.tty.callers c = .outside ∧ st'.tty.locked = false ∧
      st'.shared.gotoAddress = st.shared.gotoAddress := by
  have hpending : (st.tty.callers c).pending = [text] := by
    rw [hinside]
    rfl
  obtain ⟨place, hin⟩ := h.inPrint hpending
  have haction : printAction c text st.tty = .step c := by
    rw [printAction, hinside]
  have hstep := h.step_print hw hin
  rw [haction, Monitor.step_returns (r := ()) hinside rfl, Option.map_some]
    at hstep
  exact ⟨_, place, hstep, hpending ▸ hin, st.set_self ..,
    Monitor.State.set_self .., rfl, rfl⟩

/-- A core that is at a print calls it, and spins. -/
theorem Inv.run_calls (hw : WellPlaced K F) (h : Inv K F cnt st)
    {text : Console.Text} {place : Place}
    (hprints : PrintsAt K (st.locals c) text place)
    (houtside : st.tty.callers c = .outside) :
    ∃ st', step K F st (.core c .run) = some st' ∧
      st'.locals c = st.locals c ∧ st'.tty.callers c = .spins text := by
  have haction : printAction c text st.tty = .call c text := by
    rw [printAction, houtside]
  have hcall : Monitor.step (Console.print Cpu F.fifoDepth) st.tty
      (.call c text) = some ([(c, text)], [], st.tty.set c (.spins text)) := by
    rw [Monitor.step, houtside]
    rfl
  have hstep := h.step_print hw (.boots hprints)
  rw [haction, hcall, Option.map_some] at hstep
  exact ⟨_, hstep, st.set_self .., Monitor.State.set_self ..⟩

/-- A core that spins gets the lock when it is free. -/
theorem Inv.run_spins (hw : WellPlaced K F) (h : Inv K F cnt st)
    {text : Console.Text} (hspins : st.tty.callers c = .spins text) :
    (st.tty.locked = true → step K F st (.core c .run) = none) ∧
    (st.tty.locked = false → ∃ st', step K F st (.core c .run) = some st' ∧
      st'.locals c = st.locals c ∧
      st'.tty.callers c = .inside text (.test text.bytes)) := by
  have hpending : (st.tty.callers c).pending = [text] := by
    rw [hspins]
    rfl
  obtain ⟨place, hin⟩ := h.inPrint hpending
  have haction : printAction c text st.tty = .acquire c := by
    rw [printAction, hspins]
  have hstep := h.step_print hw hin
  rw [haction, Monitor.step_acquire hspins] at hstep
  constructor
  · intro hlocked
    rw [hstep, if_pos hlocked, Option.map_none]
  · intro hlocked
    rw [if_neg (by simp [hlocked]), Option.map_some] at hstep
    exact ⟨_, hstep, st.set_self .., Monitor.State.set_self ..⟩

/-- A core outside of its prints goes on. -/
theorem step_goes (hplace : (st.locals c).place ≠ .threads)
    (hrun : runStep K F c (st.locals c) st.shared = some (.goes l' s')) :
    step K F st (.core c .run) = some (st.set c l' s' st.tty) := by
  rw [step, coreStep, next, if_neg hplace, hrun]
  rfl

/-- A core in a print is released. -/
theorem Inv.free_of_pending (hw : WellPlaced K F) (h : Inv K F cnt st)
    {text : Console.Text}
    (hpending : (st.tty.callers c).pending = [text]) : Free c st := by
  rintro i rfl
  obtain ⟨place, hin⟩ := h.inPrint hpending
  cases hin with
  | boots at_print => exact (ap_prints hw (h.ap i) h.released at_print).1
  | thread place pending =>
      have hat := h.ap i
      rw [ApAt, place] at hat
      exact hat.1

/-- A core that is released stays so. -/
theorem Inv.free_step (hw : WellPlaced K F) (h : Inv K F cnt st)
    {turn : Turn Sem} (hstep : step K F st turn = some st')
    (hfree : Free c st) : Free c st' := by
  intro i hi
  have hgone := hfree i hi
  cases turn with
  | uart =>
      obtain ⟨result, -, rfl⟩ := Option.map_eq_some_iff.mp hstep
      exact hgone
  | core c' action =>
      obtain ⟨⟨l', s', tty'⟩, hcore, rfl⟩ := Option.map_eq_some_iff.mp hstep
      have hdoes := Does.of_step hcore
      rw [st.set_shared]
      by_cases hplace : (st.locals c').place = .threads
      · obtain ⟨-, hlater, -⟩ := (h.serves hw hplace).step hw hplace hdoes h.run
        rwa [hlater.gotoAddress]
      · cases c' with
        | bsp => exact (h.advances hw hplace hdoes).gone i hgone
        | ap j =>
            obtain ⟨-, hlater, -⟩ := h.ap_advances hw hplace hdoes
            rwa [hlater.gotoAddress]

/-- Where a core has come to run threads, it stays. -/
theorem Inv.stays (hw : WellPlaced K F) (h : Inv K F cnt st)
    {turn : Turn Sem} (hstep : step K F st turn = some st')
    (hplace : (st.locals c).place = .threads) :
    st'.locals c = st.locals c := by
  cases turn with
  | uart =>
      obtain ⟨result, -, rfl⟩ := Option.map_eq_some_iff.mp hstep
      rfl
  | core c' action =>
      obtain ⟨⟨l', s', tty'⟩, hcore, rfl⟩ := Option.map_eq_some_iff.mp hstep
      by_cases hc : c = c'
      · subst hc
        rw [st.set_self]
        exact ((h.serves hw hplace).step hw hplace (.of_step hcore) h.run).1
      · exact st.set_of_ne hc ..

/-- A core that is not there is not at the console. -/
theorem Run.outside_of_absent (hw : WellPlaced K F) (h : Run K F cnt st)
    (hnone : ¬ Exists F c) : st.tty.callers c = .outside := by
  induction h with
  | init => rfl
  | @step st st' turn before present step ih =>
      refine ((before.inv hw).others hw step ?_).2.trans ih
      rintro action rfl
      exact hnone present

/-- A schedule gives turns to cores and to the UART.  Who cannot move loses
the turn. -/
def play (K : Kernel) (F : Firmware) (turns : Nat → Turn Sem)
    (st : State Sem) : Nat → State Sem
  | 0 => st
  | n + 1 =>
      (step K F (play K F turns st n) (turns n)).getD (play K F turns st n)

/-- Some of the cores there are, and the UART, get to go on again and again,
and nobody else does. -/
structure Fair (F : Firmware) (cores : Cpu → Prop)
    (turns : Nat → Turn Sem) : Prop where
  real : ∀ c, cores c → Exists F c
  present : ∀ n c action, turns n = .core c action → cores c
  uart : Often fun n => turns n = .uart
  often : ∀ c, cores c → Often fun n => turns n = .core c .run

variable {cores : Cpu → Prop} {turns : Nat → Turn Sem}

/-- What every step keeps. -/
theorem play_kept {P : State Sem → Prop} (n : Nat)
    (hkept : ∀ st', step K F (play K F turns st n) (turns n) = some st' →
      P st') (h : P (play K F turns st n)) : P (play K F turns st (n + 1)) := by
  rw [play]
  cases hstep : step K F (play K F turns st n) (turns n) with
  | none => exact h
  | some st' => exact hkept st' hstep

theorem play_uart {n : Nat} (hturn : turns n = .uart) :
    (play K F turns st (n + 1)).tty.shared =
      (play K F turns st n).tty.shared.drain.getD
        (play K F turns st n).tty.shared := by
  have hmove : Monitor.step (Console.print Cpu F.fifoDepth)
      (play K F turns st n).tty (.move ()) =
        (play K F turns st n).tty.shared.drain.map fun u =>
          ([], [], { (play K F turns st n).tty with shared := u }) := rfl
  rw [play, hturn, step, hmove]
  cases (play K F turns st n).tty.shared.drain with
  | none => rfl
  | some u => rfl

theorem play_of_step {n : Nat} (hturn : turns n = .core c .run)
    (hstep : step K F (play K F turns st n) (.core c .run) = some st') :
    play K F turns st (n + 1) = st' := by
  rw [play, hturn, hstep, Option.getD_some]

/-- A core's own view. -/
def At (c : Cpu) (l : Local)
    (caller : Monitor.Caller Console.Text Console.Place) (st : State Sem) :
    Prop :=
  st.locals c = l ∧ st.tty.callers c = caller ∧ Free c st

/-- The print of a core has returned. -/
def Returned (K : Kernel) (c : Cpu) (l : Local) (text : Console.Text)
    (st : State Sem) : Prop :=
  ∃ place, InPrint K l [text] text place ∧ At c (l.goto place) .outside st ∧
    st.tty.locked = false

/-- A core starves: it spins for good at a lock that is free again and
again. -/
def Starves (K : Kernel) (F : Firmware) (turns : Nat → Turn Sem)
    (st : State Sem) (c : Cpu) : Prop :=
  (∃ n text, ∀ m ≥ n, (play K F turns st m).tty.callers c = .spins text) ∧
    Often fun n => (play K F turns st n).tty.locked = false

/-- The core runs threads, and is out of the console. -/
def Landed (c : Cpu) (st : State Sem) : Prop :=
  (st.locals c).place = .threads ∧ st.tty.callers c = .outside

section Played

variable (hw : WellPlaced K F) (h : Run K F cnt st)
  (hfair : Fair F cores turns)

section

include h hfair

theorem run_play (n : Nat) : Run K F cnt (play K F turns st n) := by
  induction n with
  | zero => exact h
  | succ n ih =>
      refine play_kept n (fun st' hstep => ih.step ?_ hstep) ih
      cases hturn : turns n with
      | uart => trivial
      | core c action => exact hfair.real c (hfair.present n c action hturn)

end

include hw h hfair

theorem inv_play (n : Nat) : Inv K F cnt (play K F turns st n) :=
  (run_play h hfair n).inv hw

variable {caller : Monitor.Caller Console.Text Console.Place}
  {text : Console.Text}

/-- A core that is busy waits for its turn. -/
theorem At.waits (hbusy : l.place ≠ .threads ∨ caller.pending ≠ []) (n : Nat)
    (hat : At c l caller (play K F turns st n))
    (hturn : turns n ≠ .core c .run) :
    At c l caller (play K F turns st (n + 1)) := by
  obtain ⟨hlocal, hcaller, hfree⟩ := hat
  refine play_kept n (fun st' hstep => ?_) ⟨hlocal, hcaller, hfree⟩
  have hinv := inv_play hw h hfair n
  obtain ⟨hlocal', hcaller'⟩ := hinv.keeps hw hstep hturn
    (by rwa [hlocal, hcaller])
  exact ⟨hlocal'.trans hlocal, hcaller'.trans hcaller,
    hinv.free_step hw hstep hfree⟩

/-- What a busy core does in its turn. -/
theorem At.leadsTo (hc : cores c)
    (hbusy : l.place ≠ .threads ∨ caller.pending ≠ []) {Q : State Sem → Prop}
    (hacts : ∀ st', Inv K F cnt st' → At c l caller st' →
      ∃ st'', step K F st' (.core c .run) = some st'' ∧ Q st'') :
    LeadsTo (play K F turns st) (At c l caller) Q := by
  refine .of_turn (hfair.often c hc) ?_ ?_
  · intro n hat hturn
    exact .inl (hat.waits hw h hfair hbusy n hturn)
  · intro n hat hturn
    obtain ⟨st', hstep, hQ⟩ := hacts _ (inv_play hw h hfair n) hat
    rwa [play_of_step hturn hstep]

/-- A step of the core behind the lock. -/
theorem leadsTo_goesOn (hc : cores c) {place place' : Console.Place}
    (hprint : ∀ u, ∃ u', Console.printStep F.fifoDepth place u =
      (.inl place', u')) :
    LeadsTo (play K F turns st) (At c l (.inside text place))
      (At c l (.inside text place')) := by
  refine At.leadsTo hw h hfair hc (.inr ?_) ?_
  · exact List.cons_ne_nil text []
  intro st' hinv ⟨hlocal, hcaller, hfree⟩
  obtain ⟨u', hu'⟩ := hprint st'.tty.shared
  obtain ⟨st'', hstep, hlocal', hcaller', -⟩ :=
    hinv.run_goesOn hw hcaller hu'
  exact ⟨st'', hstep, hlocal'.trans hlocal, hcaller',
    hinv.free_step hw hstep hfree⟩

/-- The FIFO gets no longer while a core polls, and shorter when the UART has
its turn. -/
theorem fifo_polled {place : Console.Place} (n : Nat)
    (hat : At c l (.inside text place) (play K F turns st n))
    (hturn : turns n ≠ .core c .run) :
    (play K F turns st (n + 1)).tty.shared.fifo.length ≤
        (play K F turns st n).tty.shared.fifo.length ∧
      (turns n = .uart → 0 < (play K F turns st n).tty.shared.fifo.length →
        (play K F turns st (n + 1)).tty.shared.fifo.length <
          (play K F turns st n).tty.shared.fifo.length) := by
  by_cases huart : turns n = .uart
  · rw [play_uart huart]
    cases hdrain : (play K F turns st n).tty.shared.drain with
    | none =>
        rw [Option.getD_none, Console.fifo_of_drain_none hdrain]
        exact ⟨Nat.le_refl _, fun _ hpos => hpos⟩
    | some u =>
        have hlt := (Console.out_drain hdrain).2
        exact ⟨Nat.le_of_lt hlt, fun _ _ => hlt⟩
  · have hsame := play_kept (K := K) (F := F) (P := fun st' => st'.tty.shared =
        (play K F turns st n).tty.shared) n (fun st' hstep =>
      (inv_play hw h hfair n).keeps_uart hw hstep hturn huart hat.2.1) rfl
    rw [hsame]
    exact ⟨Nat.le_refl _, fun hnow => absurd hnow huart⟩

/-- The UART makes room for the core that polls it. -/
theorem leadsTo_write (hdepth : 0 < F.fifoDepth) (hc : cores c)
    (first : Bool) (ch : UInt8) (str : List UInt8) :
    LeadsTo (play K F turns st) (At c l (.inside text (.poll first ch str)))
      (At c l (.inside text (.write first ch str))) := by
  have hbusy : l.place ≠ .threads ∨ (Monitor.Caller.inside text
      (Console.Place.poll first ch str)).pending ≠ [] :=
    .inr (List.cons_ne_nil text [])
  -- A turn of the core: it stays, or goes on when there is room.
  have hpolls (n : Nat) (hat : At c l (.inside text (.poll first ch str))
      (play K F turns st n)) (hturn : turns n = .core c .run) :
      At c l (.inside text
          (if F.fifoDepth ≤ (play K F turns st n).tty.shared.fifo.length
            then .poll first ch str else .write first ch str))
        (play K F turns st (n + 1)) ∧
      (play K F turns st (n + 1)).tty.shared =
        (play K F turns st n).tty.shared := by
    have hinv := inv_play hw h hfair n
    obtain ⟨st', hstep, hlocal, hcaller, huart⟩ :=
      hinv.run_goesOn hw hat.2.1 (Console.printStep_poll first ch str)
    rw [play_of_step hturn hstep]
    exact ⟨⟨hlocal.trans hat.1, hcaller, hinv.free_step hw hstep hat.2.2⟩,
      huart⟩
  refine .of_rank (fun st => st.tty.shared.fifo.length) fun k => ?_
  by_cases hroom : k < F.fifoDepth
  · refine .of_turn (hfair.often c hc) ?_ ?_
    · rintro n ⟨hat, hk⟩ hturn
      have hat' := hat.waits hw h hfair hbusy n hturn
      obtain ⟨hle, -⟩ := fifo_polled hw h hfair n hat hturn
      rcases Nat.lt_or_eq_of_le hle with hlt | heq
      · exact .inr (.inr ⟨hat', hk ▸ hlt⟩)
      · exact .inl ⟨hat', heq.trans hk⟩
    · rintro n ⟨hat, hk⟩ hturn
      have hgone := (hpolls n hat hturn).1
      rw [if_neg (by omega)] at hgone
      exact .inl hgone
  · refine .of_turn hfair.uart ?_ ?_
    · rintro n ⟨hat, hk⟩ huart
      by_cases hturn : turns n = .core c .run
      · obtain ⟨hat', hsame⟩ := hpolls n hat hturn
        rw [if_pos (by omega)] at hat'
        exact .inl ⟨hat', (congrArg (fun u => u.fifo.length) hsame).trans hk⟩
      · have hat' := hat.waits hw h hfair hbusy n hturn
        obtain ⟨hle, -⟩ := fifo_polled hw h hfair n hat hturn
        rcases Nat.lt_or_eq_of_le hle with hlt | heq
        · exact .inr (.inr ⟨hat', hk ▸ hlt⟩)
        · exact .inl ⟨hat', heq.trans hk⟩
    · rintro n ⟨hat, hk⟩ huart
      have hturn : turns n ≠ .core c .run := by
        rw [huart]
        intro heq
        cases heq
      obtain ⟨-, hlt⟩ := fifo_polled hw h hfair n hat hturn
      exact .inr ⟨hat.waits hw h hfair hbusy n hturn,
        hk ▸ hlt huart (by omega)⟩

/-- A `putc_raw` comes to its end. -/
theorem leadsTo_after (hdepth : 0 < F.fifoDepth) (hc : cores c)
    (first : Bool) (ch : UInt8) (str : List UInt8) :
    LeadsTo (play K F turns st) (At c l (.inside text (.poll first ch str)))
      (At c l (.inside text (.after first ch str))) :=
  (leadsTo_write hw h hfair hdepth hc first ch str).trans
    (leadsTo_goesOn hw h hfair hc (Console.printStep_write first ch str))

/-- The loop of `print` comes to its end. -/
theorem leadsTo_returned (hdepth : 0 < F.fifoDepth) (hc : cores c)
    (str : List UInt8) :
    LeadsTo (play K F turns st) (At c l (.inside text (.test str)))
      (Returned K c l text) := by
  induction str with
  | nil =>
      refine At.leadsTo hw h hfair hc (.inr ?_) ?_
      · exact List.cons_ne_nil text []
      intro st' hinv ⟨hlocal, hcaller, hfree⟩
      obtain ⟨st'', place, hstep, hin, hlocal', hcaller', hlocked, hgone⟩ :=
        hinv.run_returns hw hcaller
      rw [hlocal] at hin hlocal'
      exact ⟨st'', hstep, place, hin, ⟨hlocal', hcaller',
        hinv.free_step hw hstep hfree⟩, hlocked⟩
  | cons ch str ih =>
      have hpoll : LeadsTo (play K F turns st)
          (At c l (.inside text (.test (ch :: str))))
          (At c l (.inside text (.poll (decide (ch = Console.lf)) ch str))) :=
        leadsTo_goesOn hw h hfair hc fun u => ⟨u, rfl⟩
      have hafter := hpoll.trans (leadsTo_after hw h hfair hdepth hc _ ch str)
      cases hlf : decide (ch = Console.lf) with
      | false =>
          rw [hlf] at hafter
          exact hafter.trans ih
      | true =>
          rw [hlf] at hafter
          exact (hafter.trans
            (leadsTo_after hw h hfair hdepth hc false ch str)).trans ih

/-- The print behind the lock comes to its end. -/
theorem inside_leadsTo (hdepth : 0 < F.fifoDepth) (hc : cores c)
    (place : Console.Place) :
    LeadsTo (play K F turns st) (At c l (.inside text place))
      (Returned K c l text) := by
  have hend (str : List UInt8) : LeadsTo (play K F turns st)
      (At c l (.inside text (.test str))) (Returned K c l text) :=
    leadsTo_returned hw h hfair hdepth hc str
  have hafter (first : Bool) (ch : UInt8) (str : List UInt8) :
      LeadsTo (play K F turns st) (At c l (.inside text (.after first ch str)))
        (Returned K c l text) := by
    cases first with
    | false => exact hend str
    | true =>
        exact (leadsTo_after hw h hfair hdepth hc false ch str).trans (hend str)
  cases place with
  | test str => exact hend str
  | poll first ch str =>
      exact (leadsTo_after hw h hfair hdepth hc first ch str).trans
        (hafter first ch str)
  | write first ch str =>
      exact (leadsTo_goesOn hw h hfair hc
        (Console.printStep_write first ch str)).trans (hafter first ch str)

/-- Who gets no turns stays where it is. -/
theorem others_play (hc : ¬ cores c) (n : Nat) :
    (play K F turns st n).locals c = st.locals c ∧
      (play K F turns st n).tty.callers c = st.tty.callers c := by
  induction n with
  | zero => exact ⟨rfl, rfl⟩
  | succ n ih =>
      refine play_kept (P := fun st' => st'.locals c = st.locals c ∧
        st'.tty.callers c = st.tty.callers c) n (fun st' hstep => ?_) ih
      have hother (action : Action Sem) : turns n ≠ .core c action :=
        fun heq => hc (hfair.present n c action heq)
      obtain ⟨hlocal, hcaller⟩ :=
        (inv_play hw h hfair n).others hw hstep hother
      exact ⟨hlocal.trans ih.1, hcaller.trans ih.2⟩

/-- A core that has the console for itself does not starve. -/
theorem not_starves_alone (hc : cores c) (halone : ∀ c', cores c' → c' = c) :
    ¬ Starves K F turns st c := by
  rintro ⟨⟨n, text, hspins⟩, hoften⟩
  have hgets : LeadsTo (play K F turns st)
      (fun st => st.tty.callers c = .spins text ∧ st.tty.locked = false)
      fun st => st.tty.callers c = .inside text (.test text.bytes) := by
    refine .of_turn (hfair.often c hc) ?_ ?_
    · intro n ⟨hcaller, hlocked⟩ hturn
      refine .inl (play_kept (P := fun st => st.tty.callers c = .spins text ∧
        st.tty.locked = false) n (fun st' hstep => ?_) ⟨hcaller, hlocked⟩)
      have hbusy : ((play K F turns st n).tty.callers c).pending ≠ [] := by
        rw [hcaller]
        exact List.cons_ne_nil text []
      refine ⟨((inv_play hw h hfair n).keeps hw hstep hturn
        (.inr hbusy)).2.trans hcaller, ?_⟩
      cases hnow : turns n with
      | uart =>
          rw [hnow] at hstep
          obtain ⟨⟨calls, log, tty⟩, hmove, rfl⟩ :=
            Option.map_eq_some_iff.mp hstep
          cases Monitor.Does.of_step hmove
          exact hlocked
      | core c' action =>
          obtain rfl := halone c' (hfair.present n c' action hnow)
          rw [hnow] at hstep hturn
          obtain ⟨result, hcore, -⟩ := Option.map_eq_some_iff.mp hstep
          have hrun := run_of_busy (.inr hbusy)
            (by rw [hcore]; exact Option.some_ne_none _)
          exact absurd (by rw [hrun]) hturn
    · intro n ⟨hcaller, hlocked⟩ hturn
      obtain ⟨st', hstep, -, hinside⟩ :=
        ((inv_play hw h hfair n).run_spins hw hcaller).2 hlocked
      rwa [play_of_step hturn hstep]
  obtain ⟨m, hm, hlocked⟩ := hoften n
  obtain ⟨k, hk, hinside⟩ := hgets m ⟨hspins m hm, hlocked⟩
  rw [hspins k (Nat.le_trans hm hk)] at hinside
  cases hinside

variable (hdepth : 0 < F.fifoDepth)
  (hout : ∀ c, ¬ cores c → st.tty.callers c = .outside)

include hdepth hout

/-- The lock is released again and again. -/
theorem often_unlocked :
    Often fun n => (play K F turns st n).tty.locked = false := by
  intro n
  cases hlocked : (play K F turns st n).tty.locked with
  | false => exact ⟨n, Nat.le_refl n, hlocked⟩
  | true =>
      have hinv := inv_play hw h hfair n
      obtain ⟨uart, calls, log, -, hrun⟩ := hinv.logged
      obtain ⟨c, text, place, hinside, -⟩ :=
        (Console.hold_of_run hrun).busy hlocked
      have hc : cores c := by
        by_contra hnone
        have hstays := (others_play hw h hfair hnone n).2
        rw [hinside, hout c hnone] at hstays
        cases hstays
      have hpending : ((play K F turns st n).tty.callers c).pending =
          [text] := by
        rw [hinside]
        rfl
      obtain ⟨m, hm, place', -, -, hunlocked⟩ :=
        inside_leadsTo hw h hfair hdepth hc place n
          ⟨rfl, hinside, hinv.free_of_pending hw hpending⟩
      exact ⟨m, hm, hunlocked⟩

/-- A core that does not starve gets the lock. -/
theorem spins_leadsTo (hnot : ¬ Starves K F turns st c) :
    LeadsTo (play K F turns st) (At c l (.spins text))
      (At c l (.inside text (.test text.bytes))) := by
  intro n hat
  by_contra hnever
  have hspins (d : Nat) : At c l (.spins text) (play K F turns st (n + d)) := by
    induction d with
    | zero => exact hat
    | succ d ih =>
        have hinv := inv_play hw h hfair (n + d)
        by_cases hturn : turns (n + d) = .core c .run
        · obtain ⟨hheld, hfree⟩ := hinv.run_spins hw ih.2.1
          cases hlocked : (play K F turns st (n + d)).tty.locked with
          | true =>
              rw [Nat.add_succ, play, hturn, hheld hlocked, Option.getD_none]
              exact ih
          | false =>
              obtain ⟨st', hstep, hlocal, hcaller⟩ := hfree hlocked
              refine absurd ⟨n + d + 1, by omega, ?_⟩ hnever
              rw [play_of_step hturn hstep]
              exact ⟨hlocal.trans ih.1, hcaller,
                hinv.free_step hw hstep ih.2.2⟩
        · refine ih.waits hw h hfair (.inr ?_) (n + d) hturn
          exact List.cons_ne_nil text []
  refine hnot ⟨⟨n, text, fun m hm => ?_⟩,
    often_unlocked hw h hfair hdepth hout⟩
  obtain ⟨d, rfl⟩ := Nat.exists_eq_add_of_le hm
  exact (hspins d).2.1

/-- A print of the boot code comes to its end. -/
theorem prints_leadsTo (hc : cores c) (hnot : ¬ Starves K F turns st c)
    {place : Place} (hprints : PrintsAt K l text place) {n : Nat}
    (hlocal : (play K F turns st n).locals c = l)
    (hfree : Free c (play K F turns st n)) :
    ∃ m ≥ n, Returned K c l text (play K F turns st m) := by
  have hinv := inv_play hw h hfair n
  have hinside (place : Console.Place) : LeadsTo (play K F turns st)
      (At c l (.inside text place)) (Returned K c l text) :=
    inside_leadsTo hw h hfair hdepth hc place
  have hspins : LeadsTo (play K F turns st) (At c l (.spins text))
      (Returned K c l text) :=
    (spins_leadsTo hw h hfair hdepth hout hnot).trans (hinside _)
  have hpending := (hinv.pends c).text_eq
    (by rw [hlocal]; exact hprints.place_ne) (hlocal ▸ hprints)
  cases hcaller : (play K F turns st n).tty.callers c with
  | outside =>
      have hcalls : LeadsTo (play K F turns st) (At c l .outside)
          (At c l (.spins text)) := by
        refine At.leadsTo hw h hfair hc (.inl hprints.place_ne) ?_
        intro st' hinv' ⟨hlocal', hcaller', hfree'⟩
        obtain ⟨st'', hstep, hlocal'', hcaller''⟩ :=
          hinv'.run_calls hw (hlocal' ▸ hprints) hcaller'
        exact ⟨st'', hstep, hlocal''.trans hlocal', hcaller'',
          hinv'.free_step hw hstep hfree'⟩
      exact (hcalls.trans hspins) n ⟨hlocal, hcaller, hfree⟩
  | spins text' =>
      rw [hcaller] at hpending
      obtain rfl := hpending text' (List.mem_singleton_self _)
      exact hspins n ⟨hlocal, hcaller, hfree⟩
  | inside text' place' =>
      rw [hcaller] at hpending
      obtain rfl := hpending text' (List.mem_singleton_self _)
      exact hinside place' n ⟨hlocal, hcaller, hfree⟩

variable (hanswers : F.Answers)

include hanswers

/-- Every step and every print of the boot code leaves less ahead. -/
theorem boots_leadsTo (hc : cores c) (hnot : ¬ Starves K F turns st c) :
    LeadsTo (play K F turns st)
      (fun st => Free c st ∧ (st.locals c).place ≠ .threads) (Landed c) := by
  refine .of_rank (fun st => rank F.cpuCount (st.locals c).place) fun k => ?_
  rintro n ⟨⟨hfree, hplace⟩, rfl⟩
  have hinv := inv_play hw h hfair n
  obtain ⟨m, hm, l', hat, hlt⟩ : ∃ m ≥ n, ∃ l',
      At c l' .outside (play K F turns st m) ∧ rank F.cpuCount l'.place <
        rank F.cpuCount ((play K F turns st n).locals c).place := by
    obtain ⟨l', s', hrun, hlt⟩ | ⟨text, place, hprints⟩ :=
      hinv.falls hw hanswers hfree hplace
    · have hno {text place} (hprints : PrintsAt K
          ((play K F turns st n).locals c) text place) : False := by
        rw [runStep_prints_iff.mpr hprints] at hrun
        cases hrun
      have houtside : (play K F turns st n).tty.callers c = .outside := by
        cases hcaller : (play K F turns st n).tty.callers c with
        | outside => rfl
        | spins text | inside text place =>
            obtain ⟨place, hprints⟩ := hinv.pends c hplace text
              (by rw [hcaller]; exact List.mem_singleton_self text)
            exact (hno (runStep_prints_iff.mp hprints)).elim
      refine At.leadsTo (Q := fun st' => ∃ l', At c l' .outside st' ∧
        rank F.cpuCount l'.place <
          rank F.cpuCount ((play K F turns st n).locals c).place)
        hw h hfair hc (.inl hplace) ?_ n ⟨rfl, houtside, hfree⟩
      intro st' hinv' ⟨hlocal', hcaller', hfree'⟩
      have hplace' : (st'.locals c).place ≠ .threads := by rwa [hlocal']
      obtain ⟨l'', s'', hrun', hlt'⟩ | ⟨text, place, hprints⟩ :=
        hinv'.falls hw hanswers hfree' hplace'
      · have hstep := step_goes hplace' hrun'
        refine ⟨_, hstep, l'', ⟨st'.set_self .., hcaller',
          hinv'.free_step hw hstep hfree'⟩, ?_⟩
        rwa [hlocal'] at hlt'
      · exact (hno (hlocal' ▸ hprints)).elim
    · obtain ⟨m, hm, place', hin, hat, -⟩ :=
        prints_leadsTo hw h hfair hdepth hout hc hnot hprints rfl hfree
      refine ⟨m, hm, _, hat, ?_⟩
      cases hin with
      | boots at_print => exact at_print.rank_lt _
      | thread place pending => exact absurd place hplace
  obtain ⟨hlocal, hcaller, hfree'⟩ := hat
  refine ⟨m, hm, ?_⟩
  by_cases hthreads : l'.place = .threads
  · exact .inl ⟨by rwa [hlocal], hcaller⟩
  · refine .inr ⟨⟨hfree', ?_⟩, ?_⟩
    · rwa [hlocal]
    · rwa [hlocal]

/-- A core that nothing holds back and that does not starve comes to run
threads, and stays there. -/
theorem arrives (hc : cores c) (hnot : ¬ Starves K F turns st c) {n : Nat}
    (hfree : Free c (play K F turns st n)) :
    ∃ m ≥ n, ∀ k ≥ m, ((play K F turns st k).locals c).place = .threads := by
  obtain ⟨m, hm, hplace⟩ : ∃ m ≥ n,
      ((play K F turns st m).locals c).place = .threads := by
    by_cases hplace : ((play K F turns st n).locals c).place = .threads
    · exact ⟨n, Nat.le_refl n, hplace⟩
    · obtain ⟨m, hm, hlanded⟩ := boots_leadsTo hw h hfair hdepth hout hanswers
        hc hnot n ⟨hfree, hplace⟩
      exact ⟨m, hm, hlanded.1⟩
  refine ⟨m, hm, fun k hk => ?_⟩
  obtain ⟨d, rfl⟩ := Nat.exists_eq_add_of_le hk
  clear hk
  induction d with
  | zero => exact hplace
  | succ d ih =>
      refine play_kept (P := fun st' => (st'.locals c).place = .threads) (m + d)
        (fun st' hstep => ?_) ih
      rw [(inv_play hw h hfair (m + d)).stays hw hstep ih]
      exact ih

end Played

end Boot

end IntroOs
