/-
From the bootloader to the threads: `kmain` on the bootstrap processor, the
release of the other cores by `smp::init`, and `ap_entry` on each of them, in
every interleaving.  Prints go through the lock and the FIFO of the console.
One on a core that cannot reach the UART is a fault, and a use of `g_table`
without an entry for the core is a wild access.
-/
import IntroOs.Console
import IntroOs.Mmu
import IntroOs.ThreadsHeap

namespace IntroOs

namespace Boot

open ByteMem (Mem)
open Stage1 (Regs Word translate)

def kMaxCores : Nat := 8

def kUartPhysBase : Nat := 0x09000000

/-- The cores: the one that runs `kmain`, and those that wait for their entry
of `cpus` to be given a `goto_address`. -/
inductive Cpu where
  | bsp
  | ap (i : Nat)
deriving DecidableEq, Repr

/-- What Limine answers: the `mpidr` of each entry of `cpus` and the one of
the bootstrap processor, and where the image is.  And the length of the UART's
FIFO. -/
structure Firmware where
  revisionSupported : Bool
  mpResponse : Bool
  executableAddressResponse : Bool
  mpidrs : List Nat
  bspMpidr : Nat
  image : Mmu.Image
  fifoDepth : Nat

/-- All that `kmain` asks for is there. -/
abbrev Firmware.Answers (F : Firmware) : Prop :=
  F.revisionSupported = true ∧ F.mpResponse = true ∧
    F.executableAddressResponse = true

def Firmware.cpuCount (F : Firmware) : Nat := F.mpidrs.length

/-- The addresses of the kernel's own objects, and what memory holds when it
is entered: `g_l1_table` is zero, the rest is anything. -/
structure Kernel where
  table : Nat
  arena : Heap.Arena
  arenaBytes : Mem
  tables : Nat → Word
  digits : Mem
  line : Mem

/-- Where a core is in `kmain`, in `smp::init` or in `ap_entry`. -/
inductive Place where
  | check
  | mmuInit
  | activate
  | marker
  | heapInit
  | percoreInit
  | find (i : Nat)
  | writeId (self : Nat)
  | extra (self i : Nat)
  | release (self i : Nat)
  | prepare
  | banner (rest : List (List UInt8))
  | parked
  | apWriteId
  | apActivate
  | greet
  | threads
  | hang
  | fault
  | wild
deriving DecidableEq, Repr

/-- What is a core's own. -/
structure Local where
  place : Place
  tpidr : Nat
  regs : Regs

/-- What the cores share: the variables of `mmu.cpp` and its table, the heap
and the idle threads once they are there, the entries of `cpus`, the prints
that have returned, and the thread system. -/
structure Shared (Sem : Type) where
  globals : Mmu.Globals
  tables : Nat → Word
  arena : Option Mem
  idle : Option (Heap.State × (Threads.Block (Fin kMaxCores) → Nat))
  extraArgument : Nat → Nat
  gotoAddress : Nat → Bool
  output : List (Cpu × List UInt8)
  events : List (Threads.Event (Fin kMaxCores) Sem)
  machine : Threads.Machine (Fin kMaxCores) Sem

/-- `g_lock` of `console.cpp`, who is at it, and the UART behind it. -/
abbrev Tty := Monitor.State Cpu Console.Text Console.Place Console.Uart

structure State (Sem : Type) where
  locals : Cpu → Local
  shared : Shared Sem
  tty : Tty

/-- The state behind a step of core `c`. -/
def State.set {Sem : Type} (st : State Sem) (c : Cpu) (l : Local)
    (s : Shared Sem) (tty : Tty) : State Sem :=
  ⟨Function.update st.locals c l, s, tty⟩

@[simp]
theorem State.set_shared {Sem : Type} (st : State Sem) (c : Cpu) (l : Local)
    (s : Shared Sem) (tty : Tty) : (st.set c l s tty).shared = s := rfl

@[simp]
theorem State.set_tty {Sem : Type} (st : State Sem) (c : Cpu) (l : Local)
    (s : Shared Sem) (tty : Tty) : (st.set c l s tty).tty = tty := rfl

@[simp]
theorem State.set_self {Sem : Type} (st : State Sem) (c : Cpu) (l : Local)
    (s : Shared Sem) (tty : Tty) : (st.set c l s tty).locals c = l :=
  Function.update_self ..

theorem State.set_of_ne {Sem : Type} (st : State Sem) {c c' : Cpu}
    (h : c' ≠ c) (l : Local) (s : Shared Sem) (tty : Tty) :
    (st.set c l s tty).locals c' = st.locals c' :=
  Function.update_of_ne h ..

/-- A core goes on with its boot code or with the print it is in, or a thread
of it does something. -/
inductive Action (Sem : Type) where
  | run
  | thread (action : Threads.Action Sem)
  | print (text : Console.Text)

/-- The next step of the boot code: it goes on, or is in a call of
`console::print` and goes on from there. -/
inductive Next (Sem : Type) where
  | goes (l : Local) (s : Shared Sem)
  | prints (text : Console.Text) (next : Place)

def marker : List UInt8 := Console.ascii "--- kernel output begins ---\n"

/-- `smp::me`. -/
def Local.me (l : Local) : Nat := l.tpidr % 2 ^ 32

def Local.goto (l : Local) (place : Place) : Local := { l with place := place }

section Steps

variable {Sem : Type} [DecidableEq Sem] (K : Kernel) (F : Firmware)

/-- The core reaches the UART at its physical address. -/
def uartMapped (l : Local) (s : Shared Sem) : Prop :=
  ∀ reg ∈ [Console.kDataReg, Console.kFlagReg],
    translate l.regs s.tables (kUartPhysBase + reg) =
      some (Mmu.deviceMapping (kUartPhysBase + reg))

instance decidableUartMapped (l : Local) (s : Shared Sem) :
    Decidable (uartMapped l s) :=
  inferInstanceAs (Decidable (∀ _ ∈ _, _))

/-- The prints of a log. -/
def lines (log : List (Monitor.Done Cpu Console.Text Unit)) :
    List (Cpu × List UInt8) :=
  log.map fun done => (done.core, done.call.bytes)

/-- The next step of a print: the call, the lock, or a step behind it. -/
def printAction (c : Cpu) (text : Console.Text) (tty : Tty) :
    Monitor.Action Cpu Console.Text Unit :=
  match tty.callers c with
  | .outside => .call c text
  | .spins _ => .acquire c
  | .inside _ _ => .step c

/-- A step in a call of `console::print`, if the core does not spin at the
lock. -/
def print (c : Cpu) (l : Local) (s : Shared Sem) (tty : Tty)
    (text : Console.Text) (next : Place) : Option (Local × Shared Sem × Tty) :=
  if uartMapped l s then
    (Monitor.step (Console.print Cpu F.fifoDepth) tty
      (printAction c text tty)).map fun (_, log, tty) =>
        (if log.isEmpty then l else l.goto next,
          { s with output := s.output ++ lines log }, tty)
  else some (l.goto .fault, s, tty)

/-- `percore::init`. -/
def percoreInit (s : Shared Sem) : Place × Shared Sem :=
  s.arena.elim (.wild, s) fun mem =>
    ((Threads.idleBlocks (List.finRange kMaxCores)).foldlM
      (Threads.newBlock K.arena) (⟨mem, []⟩, fun _ => 0)).elim (.hang, s)
        fun built => (.find 0, { s with idle := some built })

/-- The boot code of a core. -/
def runStep (c : Cpu) (l : Local) (s : Shared Sem) : Option (Next Sem) :=
  match l.place with
  | .check => some (.goes (l.goto (if F.Answers then .mmuInit else .hang)) s)
  | .mmuInit =>
      let done := Mmu.init F.image K.table s.tables
      some (.goes (l.goto .activate)
        { s with globals := done.1, tables := done.2 })
  | .activate =>
      some (.goes { l with
        regs := Mmu.activateThisCore s.globals l.regs, place := .marker } s)
  | .marker => some (.prints (.of marker) .heapInit)
  | .heapInit =>
      some (.goes (l.goto .percoreInit)
        { s with arena := some (Heap.init K.arena K.arenaBytes) })
  | .percoreInit =>
      some (.goes (l.goto (percoreInit K s).1) (percoreInit K s).2)
  | .find i =>
      if i < F.cpuCount then
        some (.goes (l.goto (if F.mpidrs[i]? = some F.bspMpidr then .writeId i
          else .find (i + 1))) s)
      else some (.goes (l.goto (.writeId 0)) s)
  | .writeId self =>
      some (.goes { l with tpidr := self, place := .extra self 0 } s)
  | .extra self i =>
      if i < F.cpuCount then
        if i = self then some (.goes (l.goto (.extra self (i + 1))) s)
        else some (.goes (l.goto (.release self i))
          { s with extraArgument := Function.update s.extraArgument i i })
      else some (.goes (l.goto .prepare) s)
  | .release self i =>
      some (.goes (l.goto (.extra self (i + 1)))
        { s with gotoAddress := Function.update s.gotoAddress i true })
  | .prepare =>
      match Console.printBootBanner K.digits K.line l.me
          (F.cpuCount % 2 ^ 32) with
      | none => some (.goes (l.goto .wild) s)
      | some texts => some (.goes (l.goto (.banner texts)) s)
  | .banner [] => some (.goes (l.goto .threads) s)
  | .banner (text :: rest) => some (.prints (.of text) (.banner rest))
  | .parked =>
      match c with
      | .bsp => none
      | .ap i =>
          if s.gotoAddress i then some (.goes (l.goto .apWriteId) s) else none
  | .apWriteId =>
      match c with
      | .bsp => none
      | .ap i => some (.goes
          { l with tpidr := s.extraArgument i, place := .apActivate } s)
  | .apActivate =>
      some (.goes { l with
        regs := Mmu.activateThisCore s.globals l.regs, place := .greet } s)
  | .greet =>
      match Console.printApGreeting K.digits K.line l.me with
      | none => some (.goes (l.goto .wild) s)
      | some text => some (.prints (.of text) .threads)
  | .threads | .hang | .fault | .wild => none

/-- A step of the thread system on a core: `g_table[smp::me()]` has to be
there, with its idle thread. -/
def threadStep (l : Local) (s : Shared Sem) (action : Threads.Action Sem) :
    Option (Local × Shared Sem) :=
  if h : l.me < kMaxCores ∧ s.idle.isSome then
    (Threads.step ⟨l.me, h.1⟩ action s.machine).map fun (event, machine) =>
      (l, { s with events := s.events ++ event.toList, machine := machine })
  else some (l.goto .wild, s)

/-- What a core does next when it goes on: its boot code, or the print that a
thread is in. -/
def next (c : Cpu) (l : Local) (s : Shared Sem) (tty : Tty) :
    Option (Next Sem) :=
  if l.place = .threads then
    (tty.callers c).pending.head?.map fun text => .prints text .threads
  else runStep K F c l s

/-- A thread that prints does nothing else. -/
def coreStep (c : Cpu) (l : Local) (s : Shared Sem) (tty : Tty) :
    Action Sem → Option (Local × Shared Sem × Tty)
  | .run =>
      (next K F c l s tty).bind fun
        | .goes l s => some (l, s, tty)
        | .prints text next => print F c l s tty text next
  | .thread action =>
      if l.place = .threads ∧ (tty.callers c).pending = [] then
        (threadStep l s action).map fun (l, s) => (l, s, tty)
      else none
  | .print text =>
      if l.place = .threads ∧ (tty.callers c).pending = [] then
        print F c l s tty text .threads
      else none

/-- A turn is one of a core or one of the UART. -/
inductive Turn (Sem : Type) where
  | core (c : Cpu) (action : Action Sem)
  | uart

def step (st : State Sem) : Turn Sem → Option (State Sem)
  | .core c action =>
      (coreStep K F c (st.locals c) st.shared st.tty action).map
        fun (l, s, tty) => st.set c l s tty
  | .uart =>
      (Monitor.step (Console.print Cpu F.fifoDepth) st.tty (.move ())).map
        fun (_, _, tty) => { st with tty := tty }

/-- At the entry of `kmain` the other cores are parked, and the console is not
in use. -/
def initial (cnt : Sem → Int) (tpidr : Cpu → Nat) (regs : Cpu → Regs)
    (globals : Mmu.Globals) (extraArgument : Nat → Nat) (uart : Console.Uart) :
    State Sem where
  locals
    | .bsp => ⟨.check, tpidr .bsp, regs .bsp⟩
    | .ap i => ⟨.parked, tpidr (.ap i), regs (.ap i)⟩
  shared :=
    { globals := globals, tables := K.tables, arena := none, idle := none
      extraArgument := extraArgument, gotoAddress := fun _ => false
      output := [], events := [], machine := Threads.initial cnt }
  tty := ⟨uart, false, fun _ => .outside⟩

/-- The cores there are: the entries of `cpus`, of which the one of the
bootstrap processor is running. -/
def Exists (F : Firmware) : Cpu → Prop
  | .bsp => True
  | .ap i => ∃ mpidr, F.mpidrs[i]? = some mpidr ∧ mpidr ≠ F.bspMpidr

def Turn.Present (F : Firmware) : Turn Sem → Prop
  | .core c _ => Exists F c
  | .uart => True

/-- The runs.  Registers hold anything at first that the bootloader may have
left there. -/
inductive Run (cnt : Sem → Int) : State Sem → Prop
  | init (tpidr : Cpu → Nat) {regs : Cpu → Regs}
      (reached : ∀ c, F.image.Reached (regs c)) (globals : Mmu.Globals)
      (extraArgument : Nat → Nat) (uart : Console.Uart) :
      Run cnt (initial K cnt tpidr regs globals extraArgument uart)
  | step {st st' : State Sem} {turn : Turn Sem} (before : Run cnt st)
      (present : turn.Present F) (step : step K F st turn = some st') :
      Run cnt st'

end Steps

/-- The number of the bootstrap processor: its index in `cpus`, or 0 when it is
not listed there. -/
def Firmware.self (F : Firmware) : Nat :=
  (F.mpidrs.findIdx? fun mpidr => mpidr = F.bspMpidr).getD 0

/-- The image holds the table, which is zero, and there are no more cores than
`g_table` has entries. -/
structure WellPlaced (K : Kernel) (F : Firmware) : Prop where
  inside : F.image.Contains K.table 4096
  aligned : K.table % 4096 = 0
  zero : ∀ i < 512, K.tables (F.image.phys K.table + 8 * i) = 0
  cores : F.cpuCount ≤ kMaxCores

/-- What a core has printed, call by call. -/
def saidBy (c : Cpu) (output : List (Cpu × List UInt8)) :
    List (List UInt8) :=
  (output.filter fun line => line.1 = c).map Prod.snd

/-- What a core prints before it comes to run threads. -/
def bootTexts (F : Firmware) : Cpu → List (List UInt8)
  | .bsp => [marker, Console.ascii "\n", Console.ascii "Hello, World!\n",
      [Console.ascii "Booted on core ", Console.decimal F.self,
        Console.ascii " of ", Console.decimal F.cpuCount,
        Console.ascii " total.\n"].flatten]
  | .ap i => [[Console.ascii "Hello from core ", Console.decimal i,
      Console.ascii ", online!\n"].flatten]

end Boot

end IntroOs
