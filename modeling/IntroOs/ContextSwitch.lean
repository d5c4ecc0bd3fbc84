/-
`context_switch` and `thread_trampoline`, instruction by instruction, the
frame they agree on, and the frames that `make_tcb` and `make_thread_tcb`
build by hand.
-/
import IntroOs.Aarch64

namespace IntroOs

namespace ContextSwitch

open Aarch64

def contextSwitch : List Instr :=
  [.stpPre 19 20 (-96),
    .stp 21 22 16,
    .stp 23 24 32,
    .stp 25 26 48,
    .stp 27 28 64,
    .stp 29 30 80,
    .movFromSp 2,
    .str 2 0,
    .ldr 2 1,
    .movToSp 2,
    .ldp 29 30 80,
    .ldp 27 28 64,
    .ldp 25 26 48,
    .ldp 23 24 32,
    .ldp 21 22 16,
    .ldpPost 19 20 96,
    .ret]

def threadTrampoline (threadEntry : Word) : List Instr :=
  [.mov 0 19, .branch threadEntry]

theorem contextSwitch_straight :
    ∀ i ∈ contextSwitch.dropLast, i.isBranch = false := by
  decide

theorem threadTrampoline_straight (threadEntry : Word) :
    ∀ i ∈ (threadTrampoline threadEntry).dropLast, i.isBranch = false := by
  intro i hi
  cases List.mem_singleton.mp hi
  rfl

structure SavedFrame where
  x19 : Word
  x20 : Word
  x21 : Word
  x22 : Word
  x23 : Word
  x24 : Word
  x25 : Word
  x26 : Word
  x27 : Word
  x28 : Word
  x29 : Word
  x30 : Word
deriving DecidableEq

/-- The frame in memory: its fields in the order of their declaration. -/
def SavedFrame.words (frame : SavedFrame) : List Word :=
  [frame.x19, frame.x20, frame.x21, frame.x22, frame.x23, frame.x24,
    frame.x25, frame.x26, frame.x27, frame.x28, frame.x29, frame.x30]

def SavedFrame.load (m : Mem) (addr : Word) : SavedFrame :=
  ⟨m addr, m (addr + 8), m (addr + 16), m (addr + 24), m (addr + 32),
    m (addr + 40), m (addr + 48), m (addr + 56), m (addr + 64), m (addr + 72),
    m (addr + 80), m (addr + 88)⟩

def sizeofSavedFrame : Nat := 96

/-- `*frame = {}` -/
def SavedFrame.zero : SavedFrame := ⟨0, 0, 0, 0, 0, 0, 0, 0, 0, 0, 0, 0⟩

def kStackSize : Nat := 64 * 1024

/-- The two allocations of a TCB: its stack, and the TCB itself, whose first
field is `sp`. -/
structure Home where
  stack : Word
  slot : Word
deriving DecidableEq

def Home.stackTop (home : Home) : Word := home.stack + BitVec.ofNat 64 kStackSize

def Home.frame (home : Home) : Word :=
  home.stackTop - BitVec.ofNat 64 sizeofSavedFrame

def makeTcb (entry : Word) (home : Home) (m : Mem) : Mem :=
  let m := m.storeWords home.frame SavedFrame.zero.words
  let m := Function.update m (home.frame + 88) entry
  Function.update m home.slot home.frame

def makeThreadTcb (trampoline func : Word) (home : Home) (m : Mem) : Mem :=
  let m := makeTcb trampoline home m
  Function.update m (m home.slot) func

/-- The callee-saved registers. -/
def frameOf (cpu : Cpu) : SavedFrame :=
  ⟨cpu.x 19, cpu.x 20, cpu.x 21, cpu.x 22, cpu.x 23, cpu.x 24, cpu.x 25,
    cpu.x 26, cpu.x 27, cpu.x 28, cpu.x 29, cpu.x 30⟩

/-- What is stored as a frame is loaded as that frame. -/
theorem SavedFrame.load_storeWords (m : Mem) (addr : Word)
    (frame : SavedFrame) :
    SavedFrame.load (m.storeWords addr frame.words) addr = frame := by
  have hget : ∀ i (hi : i < 12),
      m.storeWords addr frame.words (addr + BitVec.ofNat 64 (8 * i)) =
        frame.words.get ⟨i, hi⟩ :=
    fun i hi => Mem.storeWords_get hi (by simp [SavedFrame.words])
  have hfirst : m.storeWords addr frame.words addr = frame.x19 := by
    have hzero := hget 0 (by omega)
    rw [Nat.mul_zero, BitVec.add_zero] at hzero
    exact hzero
  obtain ⟨x19, x20, x21, x22, x23, x24, x25, x26, x27, x28, x29, x30⟩ := frame
  simp only [SavedFrame.load, SavedFrame.mk.injEq]
  exact ⟨hfirst, hget 1 (by omega), hget 2 (by omega), hget 3 (by omega),
    hget 4 (by omega), hget 5 (by omega), hget 6 (by omega),
    hget 7 (by omega), hget 8 (by omega), hget 9 (by omega),
    hget 10 (by omega), hget 11 (by omega)⟩

/-- Loading a frame reads nothing outside of it. -/
theorem SavedFrame.load_congr {m m' : Mem} {addr : Word}
    (h : ∀ a, InSpan addr sizeofSavedFrame a → m' a = m a) :
    SavedFrame.load m' addr = SavedFrame.load m addr := by
  unfold SavedFrame.load
  congr 1 <;>
    refine h _ ?_ <;>
    unfold InSpan sizeofSavedFrame <;>
    bv_omega

/-- Up to the point where the outgoing stack pointer is written. -/
theorem exec_save (cpu : Cpu) (m : Mem) :
    execAll (contextSwitch.take 8) (cpu, m) =
      (⟨Function.update cpu.x 2 (cpu.sp - 96), cpu.sp - 96, cpu.pc + 32⟩,
        Function.update (m.storeWords (cpu.sp - 96) (frameOf cpu).words)
          (cpu.x 0) (cpu.sp - 96)) := by
  have hsp : cpu.sp + -96 = cpu.sp - 96 := by bv_omega
  simp only [execAll, contextSwitch, List.take_succ_cons, List.take_zero,
    List.foldl_cons, List.foldl_nil, Instr.exec, Cpu.next, Cpu.set,
    Mem.storePair, hsp, frameOf, SavedFrame.words, Mem.storeWords]
  simp [BitVec.add_assoc]

theorem exec_load (cpu : Cpu) (m : Mem) :
    ∃ cpu', execAll (contextSwitch.drop 8) (cpu, m) = (cpu', m) ∧
      frameOf cpu' = SavedFrame.load m (m (cpu.x 1)) ∧
      cpu'.sp = m (cpu.x 1) + 96 ∧ cpu'.pc = cpu'.x 30 := by
  refine ⟨_, rfl, ?_, ?_, ?_⟩
  · simp [Cpu.next, Cpu.set, Cpu.loadPair, frameOf, SavedFrame.load,
      BitVec.add_assoc]
  · rfl
  · rfl

/-- What a thread has when it calls `context_switch`, and gets back. -/
structure Context where
  frame : SavedFrame
  sp : Word
deriving DecidableEq

def contextOf (cpu : Cpu) : Context := ⟨frameOf cpu, cpu.sp⟩

/-- The 96 bytes below the stack pointer. -/
def Context.base (ctx : Context) : Word :=
  ctx.sp - BitVec.ofNat 64 sizeofSavedFrame

/-- The context waits in memory for whoever goes by `slot`. -/
def Holds (m : Mem) (slot : Word) (ctx : Context) : Prop :=
  m slot = ctx.base ∧ SavedFrame.load m ctx.base = ctx.frame

theorem Holds.congr {m m' : Mem} {slot : Word} {ctx : Context}
    (h : Holds m slot ctx) (hslot : m' slot = m slot)
    (hframe : ∀ a, InSpan ctx.base sizeofSavedFrame a → m' a = m a) :
    Holds m' slot ctx :=
  ⟨hslot.trans h.1, (SavedFrame.load_congr hframe).trans h.2⟩

/-- The memory after the outgoing context is saved. -/
def saved (cpu : Cpu) (m : Mem) : Mem :=
  Function.update (m.storeWords (contextOf cpu).base (frameOf cpu).words)
    (cpu.x 0) (contextOf cpu).base

theorem saved_of_ne {cpu : Cpu} {m : Mem} {a : Word} (hslot : a ≠ cpu.x 0)
    (hframe : ¬ InSpan (contextOf cpu).base sizeofSavedFrame a) :
    saved cpu m a = m a := by
  rw [saved, Function.update_of_ne hslot]
  exact Mem.storeWords_of_not_inSpan hframe (by simp [SavedFrame.words])

theorem saved_holds {cpu : Cpu} (m : Mem)
    (h : ¬ InSpan (contextOf cpu).base sizeofSavedFrame (cpu.x 0)) :
    Holds (saved cpu m) (cpu.x 0) (contextOf cpu) := by
  refine ⟨Function.update_self .., ?_⟩
  have hsame : ∀ a, InSpan (contextOf cpu).base sizeofSavedFrame a →
      saved cpu m a = m.storeWords (contextOf cpu).base (frameOf cpu).words a := by
    intro a ha
    have hne : a ≠ cpu.x 0 := by
      rintro rfl
      exact h ha
    exact Function.update_of_ne hne _ _
  rw [SavedFrame.load_congr hsame, SavedFrame.load_storeWords]
  rfl

/-- `context_switch` saves the caller's context through `x0` and leaves with
the one that waits at `x1`. -/
theorem exec_contextSwitch (cpu : Cpu) (m : Mem) :
    ∃ cpu', execAll contextSwitch (cpu, m) = (cpu', saved cpu m) ∧
      ∀ ctx, Holds (saved cpu m) (cpu.x 1) ctx →
        contextOf cpu' = ctx ∧ cpu'.pc = ctx.frame.x30 := by
  rw [← List.take_append_drop 8 contextSwitch, execAll_append, exec_save]
  obtain ⟨cpu', hexec, hframe, hsp, hpc⟩ := exec_load
    ⟨Function.update cpu.x 2 (cpu.sp - 96), cpu.sp - 96, cpu.pc + 32⟩
    (saved cpu m)
  refine ⟨cpu', hexec, fun ctx hctx => ?_⟩
  simp only [ne_eq, Fin.reduceEq, not_false_eq_true, Function.update_of_ne,
    hctx.1, hctx.2] at hframe hsp
  have hback : ctx.base + 96 = ctx.sp := by
    unfold Context.base sizeofSavedFrame
    bv_omega
  rw [hback] at hsp
  refine ⟨?_, ?_⟩
  · rw [contextOf, hframe, hsp]
  · rw [hpc, ← hframe]
    rfl

theorem exec_threadTrampoline (threadEntry : Word) (cpu : Cpu) (m : Mem) :
    execAll (threadTrampoline threadEntry) (cpu, m) =
      (⟨Function.update cpu.x 0 (cpu.x 19), cpu.sp, threadEntry⟩, m) := rfl

/-- The first context of a thread with this `x19` and `x30`. -/
def Home.context (home : Home) (x19 x30 : Word) : Context :=
  ⟨{ SavedFrame.zero with x19 := x19, x30 := x30 }, home.stackTop⟩

theorem load_update_x30 (m : Mem) (addr w : Word) :
    SavedFrame.load (Function.update m (addr + 88) w) addr =
      { SavedFrame.load m addr with x30 := w } := by
  simp [SavedFrame.load, Function.update]

theorem load_update_x19 (m : Mem) (addr w : Word) :
    SavedFrame.load (Function.update m addr w) addr =
      { SavedFrame.load m addr with x19 := w } := by
  simp [SavedFrame.load, Function.update]

section Make

variable {home : Home} {entry func a : Word}

theorem makeTcb_of_ne {m : Mem} (hslot : a ≠ home.slot)
    (hframe : ¬ InSpan home.frame sizeofSavedFrame a) :
    makeTcb entry home m a = m a := by
  have hlast : a ≠ home.frame + 88 := by
    rintro rfl
    refine hframe ?_
    unfold InSpan sizeofSavedFrame
    bv_omega
  rw [makeTcb, Function.update_of_ne hslot, Function.update_of_ne hlast]
  exact Mem.storeWords_of_not_inSpan hframe (by simp [SavedFrame.words])

theorem makeTcb_holds (entry : Word) (m : Mem)
    (h : ¬ InSpan home.frame sizeofSavedFrame home.slot) :
    Holds (makeTcb entry home m) home.slot (home.context 0 entry) := by
  refine ⟨Function.update_self .., ?_⟩
  have hsame : ∀ a, InSpan home.frame sizeofSavedFrame a →
      makeTcb entry home m a =
        Function.update (m.storeWords home.frame SavedFrame.zero.words)
          (home.frame + 88) entry a := by
    intro a ha
    have hne : a ≠ home.slot := by
      rintro rfl
      exact h ha
    exact Function.update_of_ne hne _ _
  refine (SavedFrame.load_congr hsame).trans ?_
  rw [load_update_x30, SavedFrame.load_storeWords]
  rfl

theorem makeThreadTcb_eq (trampoline func : Word) (home : Home) (m : Mem) :
    makeThreadTcb trampoline func home m =
      Function.update (makeTcb trampoline home m) home.frame func := by
  simp [makeThreadTcb, makeTcb]

theorem frame_inSpan (home : Home) :
    InSpan home.frame sizeofSavedFrame home.frame := by
  unfold InSpan sizeofSavedFrame
  bv_omega

theorem makeThreadTcb_of_ne {m : Mem} (hslot : a ≠ home.slot)
    (hframe : ¬ InSpan home.frame sizeofSavedFrame a) :
    makeThreadTcb entry func home m a = m a := by
  have hne : a ≠ home.frame := by
    rintro rfl
    exact hframe (frame_inSpan home)
  rw [makeThreadTcb_eq, Function.update_of_ne hne, makeTcb_of_ne hslot hframe]

theorem makeThreadTcb_holds (trampoline func : Word) (m : Mem)
    (h : ¬ InSpan home.frame sizeofSavedFrame home.slot) :
    Holds (makeThreadTcb trampoline func home m) home.slot
      (home.context func trampoline) := by
  obtain ⟨hslot, hload⟩ := makeTcb_holds trampoline m h
  have hne : home.slot ≠ home.frame := by
    intro heq
    rw [heq] at h
    exact h (frame_inSpan home)
  rw [makeThreadTcb_eq]
  refine ⟨(Function.update_of_ne hne _ _).trans hslot, ?_⟩
  refine (load_update_x19 _ home.frame func).trans ?_
  have hzero : SavedFrame.load (makeTcb trampoline home m) home.frame =
      (home.context 0 trampoline).frame := hload
  rw [hzero]
  rfl

end Make

end ContextSwitch

end IntroOs
