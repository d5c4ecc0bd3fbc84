/-
The part of AArch64 that saves, restores and hands over registers: general
registers, stack pointer and program counter over a memory of words.
-/
import Mathlib.Data.BitVec
import Mathlib.Logic.Function.Basic

namespace Aarch64

abbrev Word := BitVec 64

abbrev Mem := Word → Word

/-- The numbers of the general registers are written as numerals. -/
instance neZeroRegisters : NeZero 31 := ⟨by decide⟩

structure Cpu where
  x : Fin 31 → Word
  sp : Word
  pc : Word

/-- `stp a, b, [sp, #offset]` and its pre-indexed form, `ldp` and its
post-indexed form, `mov` between registers and `sp`, `str t, [n]`,
`ldr t, [n]`, `b` and `ret`. -/
inductive Instr where
  | stp (a b : Fin 31) (offset : Word)
  | stpPre (a b : Fin 31) (offset : Word)
  | ldp (a b : Fin 31) (offset : Word)
  | ldpPost (a b : Fin 31) (offset : Word)
  | mov (d n : Fin 31)
  | movFromSp (d : Fin 31)
  | movToSp (n : Fin 31)
  | str (t n : Fin 31)
  | ldr (t n : Fin 31)
  | branch (target : Word)
  | ret
deriving DecidableEq

def Cpu.set (cpu : Cpu) (r : Fin 31) (w : Word) : Cpu :=
  { cpu with x := Function.update cpu.x r w }

/-- Loads two words and goes on behind the instruction. -/
def Cpu.loadPair (cpu : Cpu) (m : Mem) (a b : Fin 31) (addr : Word) : Cpu :=
  (cpu.set a (m addr)).set b (m (addr + 8))

def Mem.storePair (m : Mem) (addr v w : Word) : Mem :=
  Function.update (Function.update m addr v) (addr + 8) w

def Cpu.next (cpu : Cpu) : Cpu := { cpu with pc := cpu.pc + 4 }

def Instr.exec : Instr → Cpu × Mem → Cpu × Mem
  | .stp a b offset, (cpu, m) =>
      (cpu.next, m.storePair (cpu.sp + offset) (cpu.x a) (cpu.x b))
  | .stpPre a b offset, (cpu, m) =>
      ({ cpu with sp := cpu.sp + offset }.next,
        m.storePair (cpu.sp + offset) (cpu.x a) (cpu.x b))
  | .ldp a b offset, (cpu, m) =>
      ((cpu.loadPair m a b (cpu.sp + offset)).next, m)
  | .ldpPost a b offset, (cpu, m) =>
      ({ cpu.loadPair m a b cpu.sp with sp := cpu.sp + offset }.next, m)
  | .mov d n, (cpu, m) => ((cpu.set d (cpu.x n)).next, m)
  | .movFromSp d, (cpu, m) => ((cpu.set d cpu.sp).next, m)
  | .movToSp n, (cpu, m) => ({ cpu with sp := cpu.x n }.next, m)
  | .str t n, (cpu, m) => (cpu.next, Function.update m (cpu.x n) (cpu.x t))
  | .ldr t n, (cpu, m) => ((cpu.set t (m (cpu.x n))).next, m)
  | .branch target, (cpu, m) => ({ cpu with pc := target }, m)
  | .ret, (cpu, m) => ({ cpu with pc := cpu.x 30 }, m)

def Instr.isBranch : Instr → Bool
  | .branch _ | .ret => true
  | _ => false

/-- Where the instructions are. -/
abbrev Program := Word → Option Instr

/-- The code lies at the address, one instruction every four bytes. -/
def Located (prog : Program) (addr : Word) : List Instr → Prop
  | [] => True
  | i :: rest => prog addr = some i ∧ Located prog (addr + 4) rest

/-- Fetches and executes `n` instructions, if there are any. -/
def steps (prog : Program) : Nat → Cpu × Mem → Option (Cpu × Mem)
  | 0, s => some s
  | n + 1, s => (prog s.1.pc).bind fun i => steps prog n (i.exec s)

def execAll (code : List Instr) (s : Cpu × Mem) : Cpu × Mem :=
  code.foldl (fun s i => i.exec s) s

theorem execAll_append (code code' : List Instr) (s : Cpu × Mem) :
    execAll (code ++ code') s = execAll code' (execAll code s) :=
  List.foldl_append

theorem Instr.exec_pc {i : Instr} (h : i.isBranch = false) (s : Cpu × Mem) :
    (i.exec s).1.pc = s.1.pc + 4 := by
  cases i with
  | branch _ => cases h
  | ret => cases h
  | _ => rfl

/-- Code without a branch but at its end runs from its first instruction to
its last. -/
theorem steps_of_located {prog : Program} {code : List Instr} {s : Cpu × Mem}
    (hlocated : Located prog s.1.pc code)
    (hstraight : ∀ i ∈ code.dropLast, i.isBranch = false) :
    steps prog code.length s = some (execAll code s) := by
  induction code generalizing s with
  | nil => rfl
  | cons i rest ih =>
      rw [List.length_cons, steps, hlocated.1, Option.bind_some]
      cases rest with
      | nil => rfl
      | cons j rest =>
          have hpc := Instr.exec_pc (hstraight i (by simp)) s
          refine ih (hpc ▸ hlocated.2) fun k hk => hstraight k ?_
          rw [List.dropLast_cons_cons]
          exact List.mem_cons_of_mem i hk

/-- The address is one of the `n` bytes from `base`. -/
def InSpan (base : Word) (n : Nat) (a : Word) : Prop :=
  (a - base).toNat < n

instance (base : Word) (n : Nat) (a : Word) : Decidable (InSpan base n a) :=
  inferInstanceAs (Decidable ((a - base).toNat < n))

/-- Stores words next to each other. -/
def Mem.storeWords (m : Mem) (base : Word) : List Word → Mem
  | [] => m
  | w :: ws => Mem.storeWords (Function.update m base w) (base + 8) ws

theorem Mem.storeWords_of_not_inSpan {m : Mem} {base a : Word}
    {ws : List Word} (h : ¬ InSpan base (8 * ws.length) a)
    (hsize : 8 * ws.length ≤ 2 ^ 64) : m.storeWords base ws a = m a := by
  induction ws generalizing m base with
  | nil => rfl
  | cons w ws ih =>
      simp only [InSpan, List.length_cons] at h hsize ih
      have hne : a ≠ base := by
        rintro rfl
        exact h (by rw [BitVec.sub_self]; simp)
      have hnext : ¬ (a - (base + 8)).toNat < 8 * ws.length := by
        bv_omega
      rw [Mem.storeWords, ih hnext (by omega), Function.update_of_ne hne]

theorem Mem.storeWords_get {m : Mem} {base : Word} {ws : List Word} {i : Nat}
    (hi : i < ws.length) (hsize : 8 * ws.length ≤ 2 ^ 64) :
    m.storeWords base ws (base + BitVec.ofNat 64 (8 * i)) = ws[i] := by
  induction ws generalizing m base i with
  | nil => cases hi
  | cons w ws ih =>
      simp only [List.length_cons] at hi hsize
      cases i with
      | zero =>
          have hout : ¬ InSpan (base + 8) (8 * ws.length) base := by
            unfold InSpan
            bv_omega
          rw [Mem.storeWords, Nat.mul_zero, BitVec.add_zero,
            storeWords_of_not_inSpan hout (by omega), Function.update_self]
          rfl
      | succ i =>
          have hnext : base + BitVec.ofNat 64 (8 * (i + 1)) =
              base + 8 + BitVec.ofNat 64 (8 * i) := by
            bv_omega
          rw [hnext, Mem.storeWords, ih (Nat.lt_of_succ_lt_succ hi) (by omega)]
          rfl

end Aarch64
