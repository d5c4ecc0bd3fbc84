/-
The kernel heap: a first-fit, coalescing allocator over one static arena.
Every block is bracketed by two copies of its tag, a header and a footer, that
live in the same bytes as the payloads, so the model is over a byte memory.
-/
import IntroOs.ByteMem
import IntroOs.Tiling

namespace IntroOs

namespace Heap

open ByteMem

def kArenaSize : Nat := 2 * 1024 * 1024

def kAlignment : Nat := 16

/-- `sizeof(Tag)`: two `size_t` fields. -/
def kTagSize : Nat := 16

def kMinBlockSize : Nat := 2 * kTagSize

/-- Unsigned 64-bit addition, of `size_t` values and of pointers. -/
@[irreducible] def add64 (a b : Nat) : Nat := (a + b) % 2 ^ 64

/-- Unsigned 64-bit subtraction. -/
@[irreducible] def sub64 (a b : Nat) : Nat := (a + (2 ^ 64 - b % 2 ^ 64)) % 2 ^ 64

/-- The address of `g_arena`.  It is `alignas(16)`, not null, and its
one-past-the-end pointer is an address too. -/
structure Arena where
  base : Nat
  aligned : base % kAlignment = 0
  nonnull : 0 < base
  fits : base + kArenaSize < 2 ^ 64

structure Tag where
  blockSize : Nat
  inUse : Nat
deriving DecidableEq, Repr

def readTag (m : Mem) (a : Nat) : Tag := ⟨load m a 8, load m (a + 8) 8⟩

def writeTag (m : Mem) (a : Nat) (tag : Tag) : Mem :=
  store (store m a 8 tag.blockSize) (a + 8) 8 tag.inUse

/-- `(n + alignment - 1) & ~(alignment - 1)` on 64-bit values. -/
def alignUp (n alignment : Nat) : Nat :=
  sub64 (add64 n alignment) 1 &&& (2 ^ 64 - 1 - (alignment - 1))

def footerOf (m : Mem) (header : Nat) : Nat :=
  sub64 (add64 header (readTag m header).blockSize) kTagSize

def payloadOf (header : Nat) : Nat := add64 header kTagSize

def headerOf (payload : Nat) : Nat := sub64 payload kTagSize

/-- The footer's address is computed from the block size just stored in the
header. -/
def writeTags (m : Mem) (header size : Nat) (inUse : Bool) : Mem :=
  let m := writeTag m header ⟨size, inUse.toNat⟩
  writeTag m (footerOf m header) ⟨size, inUse.toNat⟩

def arenaBegin (A : Arena) : Nat := A.base

def arenaEnd (A : Arena) : Nat := A.base + kArenaSize

def nextBlock (A : Arena) (m : Mem) (header : Nat) : Option Nat :=
  let next := add64 header (readTag m header).blockSize
  if next < arenaEnd A then some next else none

def prevBlock (A : Arena) (m : Mem) (header : Nat) : Option Nat :=
  if header = A.base then none
  else
    let prevFooter := sub64 header kTagSize
    some (sub64 header (readTag m prevFooter).blockSize)

/-- `heap::init`: one free block spanning the arena. -/
def init (A : Arena) (m : Mem) : Mem := writeTags m (arenaBegin A) kArenaSize false

/-- The block `malloc` has settled on is split when the remainder can stand
alone, and handed over whole otherwise. -/
def carve (A : Arena) (m : Mem) (block needed : Nat) : Mem :=
  let size := (readTag m block).blockSize
  let remainder := sub64 size needed
  if kMinBlockSize ≤ remainder then
    let m := writeTags m block needed true
    writeTags m ((nextBlock A m block).getD 0) remainder false
  else writeTags m block size true

/-- The search loop of `malloc`, from `block` on.  `none` is a loop that has
not ended after `fuel` iterations; `some (m, none)` is a null result. -/
def mallocLoop (A : Arena) (m : Mem) (needed : Nat) :
    Nat → Option Nat → Option (Mem × Option Nat)
  | 0, _ => none
  | _ + 1, none => some (m, none)
  | fuel + 1, some block =>
      let tag := readTag m block
      if tag.inUse ≠ 0 ∨ tag.blockSize < needed then
        mallocLoop A m needed fuel (nextBlock A m block)
      else some (carve A m block needed, some (payloadOf block))

/-- One more than the number of minimal blocks the arena has room for. -/
def loopBound : Nat := kArenaSize / kMinBlockSize + 1

/-- The size of block a request for `size` bytes needs. -/
def neededFor (size : Nat) : Nat := add64 (alignUp size kAlignment) (2 * kTagSize)

/-- `heap::malloc`.  The call runs under `g_lock`, so it is one step for every
other caller of the heap. -/
def malloc (A : Arena) (m : Mem) (size : Nat) : Option (Mem × Option Nat) :=
  if size = 0 then some (m, none)
  else mallocLoop A m (neededFor size) (loopBound + 1) (some (arenaBegin A))

/-- The size of the block being freed, grown by the next block when there is
one and it is free. -/
def sizeWithNext (A : Arena) (m : Mem) (block : Nat) : Nat :=
  let size := (readTag m block).blockSize
  (nextBlock A m block).elim size fun next =>
    if (readTag m next).inUse = 0 then add64 size (readTag m next).blockSize
    else size

/-- `heap::free`: the freed block is merged with its next and its previous
block when these are free. -/
def free (A : Arena) (m : Mem) : Option Nat → Mem
  | none => m
  | some ptr =>
      let block := headerOf ptr
      let size := sizeWithNext A m block
      (prevBlock A m block).elim (writeTags m block size false) fun prev =>
        if (readTag m prev).inUse = 0 then
          writeTags m prev (add64 size (readTag m prev).blockSize) false
        else writeTags m block size false

/-- The blocks met by walking the headers from `block` on, at their offsets in
the arena. -/
def walk (A : Arena) (m : Mem) : Nat → Option Nat → List Tiling.Block
  | 0, _ => []
  | _ + 1, none => []
  | fuel + 1, some block =>
      let tag := readTag m block
      ⟨block - A.base, tag.blockSize, decide (tag.inUse ≠ 0)⟩ ::
        walk A m fuel (nextBlock A m block)

/-- The block list of the heap: the walk from `arena_begin()`. -/
def blocks (A : Arena) (m : Mem) : List Tiling.Block :=
  walk A m loopBound (some (arenaBegin A))

end Heap

end IntroOs
