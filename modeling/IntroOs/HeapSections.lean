/-
The heap operations one memory access at a time: `malloc` and `free` behind
their lock, as programs of 64-bit loads and stores.  Run alone they compute
what the functions of the heap compute, and no access of theirs touches the
payload of another live block.
-/
import IntroOs.HeapRun
import IntroOs.Interact

namespace IntroOs

namespace Heap

open ByteMem Tiling
open Interact (Prog)

/-- An access of one 64-bit word. -/
inductive Access where
  | load (a : Nat)
  | store (a v : Nat)
deriving DecidableEq, Repr

/-- What an access does to the memory. -/
def access : Access → Mem → Nat × Mem
  | .load a, m => (ByteMem.load m a 8, m)
  | .store a v, m => (0, ByteMem.store m a 8 v)

/-- Code behind `g_lock`. -/
abbrev Section := Prog Access Nat

namespace Section

def load (a : Nat) : Section Nat := .request (.load a)

def store (a v : Nat) : Section Unit := do
  let _ ← Prog.request (.store a v)
  return ()

/-- `header->block_size`. -/
def blockSize (header : Nat) : Section Nat := load header

/-- `header->in_use`. -/
def inUse (header : Nat) : Section Nat := load (header + 8)

def footerOf (header : Nat) : Section Nat := do
  let size ← blockSize header
  return sub64 (add64 header size) kTagSize

def writeTags (header size : Nat) (used : Bool) : Section Unit := do
  store header size
  store (header + 8) used.toNat
  let footer ← footerOf header
  store footer size
  store (footer + 8) used.toNat

def nextBlock (A : Arena) (header : Nat) : Section (Option Nat) := do
  let size ← blockSize header
  let next := add64 header size
  return if next < arenaEnd A then some next else none

def prevBlock (A : Arena) (header : Nat) : Section (Option Nat) :=
  if header = A.base then return none
  else do
    let size ← blockSize (sub64 header kTagSize)
    return some (sub64 header size)

/-- `malloc` once it has found its block. -/
def carve (A : Arena) (block needed : Nat) : Section Unit := do
  let size ← blockSize block
  let remainder := sub64 size needed
  if kMinBlockSize ≤ remainder then do
    writeTags block needed true
    let next ← nextBlock A block
    writeTags (next.getD 0) remainder false
  else do
    let size ← blockSize block
    writeTags block size true

/-- `block->in_use || block->block_size < needed`. -/
def skips (block needed : Nat) : Section Bool := do
  let used ← inUse block
  if used ≠ 0 then return true
  else do
    let size ← blockSize block
    return decide (size < needed)

/-- The search loop; `none` is a loop that has not ended after `fuel`
iterations, `some none` a null result. -/
def mallocLoop (A : Arena) (needed : Nat) :
    Nat → Option Nat → Section (Option (Option Nat))
  | 0, _ => return none
  | _ + 1, none => return some none
  | fuel + 1, some block => do
      if ← skips block needed then do
        let next ← nextBlock A block
        mallocLoop A needed fuel next
      else do
        carve A block needed
        return some (some (payloadOf block))

/-- `malloc` behind its lock, for a size that is not 0. -/
def malloc (A : Arena) (size : Nat) : Section (Option (Option Nat)) :=
  mallocLoop A (neededFor size) (loopBound + 1) (some (arenaBegin A))

/-- The block in front or behind that `free` merges with: there is one, and it
is free. -/
def mergeable : Option Nat → Section Bool
  | none => return false
  | some other => do
      let used ← inUse other
      return decide (used = 0)

/-- The size of the block being freed, grown by the next block when there is
one and it is free. -/
def sizeWithNext (A : Arena) (block : Nat) : Section Nat := do
  let size ← blockSize block
  let next ← nextBlock A block
  if ← mergeable next then do
    let more ← blockSize (next.getD 0)
    return add64 size more
  else return size

/-- `free` behind its lock, for a pointer that is not null. -/
def free (A : Arena) (ptr : Nat) : Section Unit := do
  let block := headerOf ptr
  let size ← sizeWithNext A block
  let prev ← prevBlock A block
  if ← mergeable prev then do
    let more ← blockSize (prev.getD 0)
    writeTags (prev.getD 0) (add64 size more) false
  else writeTags block size false

end Section

section Alone

variable (A : Arena) (m : Mem)

@[simp]
theorem run_load (a : Nat) :
    (Section.load a).run access m = (ByteMem.load m a 8, m) := (rfl)

@[simp]
theorem run_store (a v : Nat) :
    (Section.store a v).run access m = ((), ByteMem.store m a 8 v) := (rfl)

@[simp]
theorem run_blockSize (a : Nat) :
    (Section.blockSize a).run access m = ((readTag m a).blockSize, m) := (rfl)

@[simp]
theorem run_inUse (a : Nat) :
    (Section.inUse a).run access m = ((readTag m a).inUse, m) := (rfl)

@[simp]
theorem run_writeTags (header size : Nat) (used : Bool) :
    (Section.writeTags header size used).run access m =
      ((), writeTags m header size used) := (rfl)

@[simp]
theorem run_nextBlock (header : Nat) :
    (Section.nextBlock A header).run access m = (nextBlock A m header, m) := (rfl)

@[simp]
theorem run_prevBlock (header : Nat) :
    (Section.prevBlock A header).run access m = (prevBlock A m header, m) := by
  unfold Section.prevBlock prevBlock
  split <;> rfl

@[simp]
theorem run_carve (block needed : Nat) :
    (Section.carve A block needed).run access m =
      ((), carve A m block needed) := by
  simp only [Section.carve, carve, Prog.run_bind, Prog.run_ite, run_blockSize,
    run_writeTags, run_nextBlock]
  split <;> rfl

@[simp]
theorem run_skips (block needed : Nat) :
    (Section.skips block needed).run access m =
      (decide ((readTag m block).inUse ≠ 0 ∨
        (readTag m block).blockSize < needed), m) := by
  simp only [Section.skips, Prog.run_bind, Prog.run_ite, run_inUse,
    run_blockSize, Prog.run_pure]
  split
  · next hused => simp [hused]
  · next hfree => simp [hfree]

/-- The loop as accesses is the loop of the heap model. -/
theorem run_mallocLoop (needed fuel : Nat) (block : Option Nat) :
    (Section.mallocLoop A needed fuel block).run access m =
      ((mallocLoop A m needed fuel block).map Prod.snd,
        (mallocLoop A m needed fuel block).elim m Prod.fst) := by
  induction fuel generalizing block with
  | zero => rfl
  | succ fuel ih =>
      cases block with
      | none => rfl
      | some block =>
          simp only [Section.mallocLoop, mallocLoop, Prog.run_bind,
            Prog.run_ite, run_skips, run_nextBlock, run_carve, ih]
          by_cases hskip : (readTag m block).inUse ≠ 0 ∨
              (readTag m block).blockSize < needed
          · rw [if_pos (decide_eq_true hskip), if_pos hskip]
          · rw [if_neg (by simpa using hskip), if_neg hskip]
            rfl

theorem run_malloc {size : Nat} (h : size ≠ 0) :
    (Section.malloc A size).run access m =
      ((malloc A m size).map Prod.snd, (malloc A m size).elim m Prod.fst) := by
  rw [Section.malloc, run_mallocLoop, malloc, if_neg h]

@[simp]
theorem run_mergeable (other : Option Nat) :
    (Section.mergeable other).run access m =
      (other.elim false fun a => decide ((readTag m a).inUse = 0), m) := by
  cases other with
  | none => rfl
  | some a =>
      simp only [Section.mergeable, Prog.run_bind, run_inUse, Prog.run_pure,
        Option.elim_some]

@[simp]
theorem run_sizeWithNext (block : Nat) :
    (Section.sizeWithNext A block).run access m =
      (sizeWithNext A m block, m) := by
  simp only [Section.sizeWithNext, sizeWithNext, Prog.run_bind, Prog.run_ite,
    Prog.run_pure, run_blockSize, run_nextBlock, run_mergeable]
  cases nextBlock A m block with
  | none => rfl
  | some next =>
      by_cases hfree : (readTag m next).inUse = 0
      · simp [hfree]
      · simp [hfree]

theorem run_free (ptr : Nat) :
    (Section.free A ptr).run access m = ((), free A m (some ptr)) := by
  simp only [Section.free, free, Prog.run_bind, Prog.run_ite, run_blockSize,
    run_sizeWithNext, run_prevBlock, run_mergeable, run_writeTags]
  cases prevBlock A m (headerOf ptr) with
  | none => rfl
  | some prev =>
      by_cases hfree : (readTag m prev).inUse = 0
      · simp [hfree]
      · simp [hfree]

end Alone

section Footprint

/-- The first byte of an access. -/
def Access.addr : Access → Nat
  | .load a => a
  | .store a _ => a

/-- The access does not touch byte `x`. -/
def Access.Avoids (x : Nat) (req : Access) : Prop :=
  x < req.addr ∨ req.addr + 8 ≤ x

/-- Byte `x` is not one of the tag at `a`. -/
def ClearOf (x a : Nat) : Prop := x < a ∨ a + kTagSize ≤ x

variable {A : Arena} {m : Mem} {x a : Nat} {segs : List Seg}

theorem only_load : (Section.load a).Only access (Access.Avoids x) m ↔
    (Access.load a).Avoids x :=
  Prog.only_request ..

theorem only_store {v : Nat} :
    (Section.store a v).Only access (Access.Avoids x) m ↔
      (Access.store a v).Avoids x := by
  simp [Section.store]

theorem only_blockSize (h : ClearOf x a) :
    (Section.blockSize a).Only access (Access.Avoids x) m := by
  unfold ClearOf kTagSize at h
  rw [Section.blockSize, only_load, Access.Avoids, Access.addr]
  omega

theorem only_inUse (h : ClearOf x a) :
    (Section.inUse a).Only access (Access.Avoids x) m := by
  unfold ClearOf kTagSize at h
  rw [Section.inUse, only_load, Access.Avoids, Access.addr]
  omega

theorem only_store_tag (h : ClearOf x a) (size used : Nat) :
    (Section.store a size).Only access (Access.Avoids x) m ∧
      (Section.store (a + 8) used).Only access (Access.Avoids x) m := by
  unfold ClearOf kTagSize at h
  rw [only_store, only_store, Access.Avoids, Access.Avoids, Access.addr,
    Access.addr]
  omega

theorem footerOf_writeTag (m : Mem) {size : Nat} (used : Bool)
    (hsize : 32 ≤ size) (hend : a + size < 2 ^ 64) :
    footerOf (writeTag m a ⟨size, used.toNat⟩) a = a + size - 16 := by
  have hheader : readTag (writeTag m a ⟨size, used.toNat⟩) a =
      ⟨size, used.toNat⟩ :=
    readTag_writeTag_same m a (show size < 2 ^ 64 by omega) (bool_toNat_lt used)
  unfold footerOf kTagSize
  rw [hheader, add64_eq hend, sub64_eq (by omega) hend]

theorem only_writeTags {size : Nat} {used : Bool} (hsize : 32 ≤ size)
    (hend : a + size < 2 ^ 64) (hhead : ClearOf x a)
    (hfoot : ClearOf x (a + size - 16)) :
    (Section.writeTags a size used).Only access (Access.Avoids x) m := by
  have hfooter := footerOf_writeTag m used hsize hend
  have hload : (Section.footerOf a).run access
      (writeTag m a ⟨size, used.toNat⟩) =
      (a + size - 16, writeTag m a ⟨size, used.toNat⟩) := by
    rw [← hfooter]
    rfl
  simp only [Section.writeTags, Prog.only_bind, run_store]
  refine ⟨(only_store_tag hhead _ 0).1, (only_store_tag hhead 0 _).2, ?_, ?_⟩
  · simp only [Section.footerOf, Prog.only_bind]
    exact ⟨only_blockSize hhead, Prog.only_pure ..⟩
  · have hstores := hload
    rw [writeTag] at hstores
    rw [hstores]
    exact ⟨(only_store_tag hfoot _ 0).1, (only_store_tag hfoot 0 _).2⟩

theorem only_nextBlock (h : ClearOf x a) :
    (Section.nextBlock A a).Only access (Access.Avoids x) m := by
  simp only [Section.nextBlock, Prog.only_bind]
  exact ⟨only_blockSize h, Prog.only_pure ..⟩

theorem only_skips (h : ClearOf x a) (needed : Nat) :
    (Section.skips a needed).Only access (Access.Avoids x) m := by
  simp only [Section.skips, Prog.only_bind, Prog.only_ite, Prog.only_pure,
    and_true]
  exact ⟨only_inUse h, fun _ => trivial, fun _ => only_blockSize h⟩

theorem tagOf_inUse_ne_zero (seg : Seg) :
    (tagOf seg).inUse ≠ 0 ↔ seg.used = true := by
  cases hused : seg.used <;> simp [tagOf, hused]

/-- `malloc` stays inside the free block it has found. -/
theorem only_carve {n needed : Nat} (hheader : readTag m a = tagOf ⟨n, false⟩)
    (hfit : needed ≤ n) (hleast : 32 ≤ needed) (hend : a + n ≤ arenaEnd A)
    (hout : x < a ∨ a + n ≤ x) :
    (Section.carve A a needed).Only access (Access.Avoids x) m := by
  have harena := A.fits
  unfold arenaEnd at hend
  have hclear : ClearOf x a := by
    unfold ClearOf kTagSize
    omega
  have hremainder : sub64 n needed = n - needed := sub64_eq hfit (by omega)
  simp only [Section.carve, Prog.only_bind, Prog.only_ite, run_blockSize,
    run_writeTags, run_nextBlock, hheader, tagOf, hremainder]
  refine ⟨only_blockSize hclear, fun hsplit => ?_, fun _ => ?_⟩
  · unfold kMinBlockSize kTagSize at hsplit
    have hhead := (writeTags_spec m a needed true hleast (by omega)).1
    have hnext : nextBlock A (writeTags m a needed true) a =
        some (a + needed) := by
      rw [nextBlock_eq A hhead (by unfold arenaEnd; simp only; omega),
        if_pos (by unfold arenaEnd; simp only; omega)]
    rw [hnext]
    refine ⟨only_writeTags hleast (by omega) hclear ?_, only_nextBlock hclear,
      only_writeTags (by omega) ?_ ?_ ?_⟩
    · unfold ClearOf kTagSize
      omega
    · simp only [Option.getD_some]
      omega
    · simp only [ClearOf, kTagSize, Option.getD_some]
      omega
    · simp only [ClearOf, kTagSize, Option.getD_some]
      omega
  · refine ⟨only_blockSize hclear,
      only_writeTags (by omega) (by omega) hclear ?_⟩
    unfold ClearOf kTagSize
    omega

/-- The search of `malloc` reads headers and writes in the free block it has
found. -/
theorem only_mallocLoop {needed fuel : Nat} (hleast : 32 ≤ needed)
    (hpos : ∀ seg ∈ segs, 0 < seg.size) (htags : Tags m a segs)
    (hend : a + total segs = arenaEnd A)
    (hclear : ∀ block ∈ place a segs, ClearOf x block.offset ∧
      (block.used = false →
        x < block.offset ∨ block.offset + block.size ≤ x)) :
    (Section.mallocLoop A needed fuel (cursor a segs)).Only access
      (Access.Avoids x) m := by
  induction segs generalizing a fuel with
  | nil =>
      cases fuel with
      | zero => exact Prog.only_pure ..
      | succ fuel => exact Prog.only_pure ..
  | cons seg rest ih =>
      cases fuel with
      | zero => exact Prog.only_pure ..
      | succ fuel =>
          obtain ⟨hheader, -, hrest⟩ := htags
          have hposRest : ∀ s ∈ rest, 0 < s.size := fun s hs =>
            hpos s (List.mem_cons_of_mem seg hs)
          have hnext := nextBlock_cursor A hheader hposRest hend
          obtain ⟨hclearSeg, hfree⟩ :=
            hclear ⟨a, seg.size, seg.used⟩ List.mem_cons_self
          simp only [total] at hend
          simp only [cursor, Section.mallocLoop, Prog.only_bind, Prog.only_ite,
            run_skips, run_nextBlock, hheader, hnext, tagOf_inUse_ne_zero,
            Prog.only_pure, and_true]
          refine ⟨only_skips hclearSeg needed, fun _ => ?_, fun hfits => ?_⟩
          · exact ⟨only_nextBlock hclearSeg, ih hposRest hrest (by omega)
              fun block hblock => hclear block (List.mem_cons_of_mem _ hblock)⟩
          · rw [decide_eq_true_eq, not_or, Bool.not_eq_true] at hfits
            rcases seg with ⟨n, used⟩
            obtain ⟨rfl, hfits⟩ := hfits
            simp only at hend
            exact only_carve hheader (Nat.le_of_not_lt hfits) hleast
              (by omega) (hfree rfl)

/-- A byte of the payload of a live block is no tag, and in no other block. -/
theorem Tiled.clear_of_payload (h : Tiled A m segs) {own block : Block}
    (hown : own ∈ place 0 segs) (hblock : block ∈ place 0 segs)
    (hlo : A.base + own.offset + 16 ≤ x)
    (hhi : x < A.base + own.offset + own.size - 16) :
    ClearOf x (A.base + block.offset) ∧
      ClearOf x (A.base + block.offset + block.size - 16) ∧
      (block ≠ own → x < A.base + block.offset ∨
        A.base + block.offset + block.size ≤ x) := by
  have hleast := (h.block_spec hblock).2.1
  unfold ClearOf kTagSize
  by_cases heq : block = own
  · subst heq
    exact ⟨by omega, by omega, fun hne => absurd rfl hne⟩
  · have hdisjoint := place_disjoint hblock hown heq
    exact ⟨by omega, by omega, fun _ => by omega⟩

/-- `malloc` does not touch the payloads of live blocks. -/
theorem Tiled.only_malloc (h : Tiled A m segs) {own : Block}
    (hown : own ∈ live 0 segs) (hlo : A.base + own.offset + 16 ≤ x)
    (hhi : x < A.base + own.offset + own.size - 16) {size : Nat}
    (hfits : Fits size) :
    (Section.malloc A size).Only access (Access.Avoids x) m := by
  obtain ⟨hown, hused⟩ := mem_live.mp hown
  have hneeded := neededFor_eq hfits
  rw [Section.malloc, ← h.cursor_eq]
  refine only_mallocLoop (by omega) h.seg_pos h.tags h.end_eq ?_
  intro block hblock
  have hshift := place_add A.base 0 segs
  rw [Nat.add_zero] at hshift
  rw [hshift, List.mem_map] at hblock
  obtain ⟨block, hblock, rfl⟩ := hblock
  obtain ⟨hclear, -, hother⟩ := h.clear_of_payload hown hblock hlo hhi
  refine ⟨hclear, fun hfree => hother ?_⟩
  rintro rfl
  exact absurd (hused.symm.trans hfree) (by decide)

theorem only_mergeable {other : Option Nat}
    (h : ∀ a, other = some a → ClearOf x a) :
    (Section.mergeable other).Only access (Access.Avoids x) m := by
  cases other with
  | none => exact Prog.only_pure ..
  | some a =>
      simp only [Section.mergeable, Prog.only_bind, Prog.only_pure, and_true]
      exact only_inUse (h a rfl)

section Free

variable {pre post : List Seg} {n : Nat}

/-- Byte `x` is in no tag of the arena. -/
def Untagged (A : Arena) (x : Nat) (segs : List Seg) : Prop :=
  ∀ block ∈ place 0 segs, ClearOf x (A.base + block.offset) ∧
    ClearOf x (A.base + block.offset + block.size - 16)

theorem Untagged.at_split {seg : Seg}
    (h : Untagged A x (pre ++ seg :: post)) :
    ClearOf x (A.base + total pre) ∧
      ClearOf x (A.base + total pre + seg.size - 16) := by
  have hself := h _ (mem_place_of_split 0 pre post seg)
  simpa only [Nat.zero_add] using hself

/-- The headers around the block that is freed. -/
theorem Tiled.next_clear (h : Tiled A m (pre ++ ⟨n, true⟩ :: post))
    (hx : Untagged A x (pre ++ ⟨n, true⟩ :: post)) {next : Nat}
    (hnext : nextBlock A m (A.base + total pre) = some next) :
    ClearOf x next := by
  obtain ⟨-, hheader, -, -⟩ := tags_append.mp h.tags
  have hcursor := nextBlock_cursor A hheader
    (fun s (hs : s ∈ post) => h.seg_pos s (by simp [hs]))
    (by simpa [Nat.add_assoc] using h.end_eq)
  rw [hcursor] at hnext
  cases post with
  | nil => cases hnext
  | cons seg rest =>
      cases hnext
      have hx' : Untagged A x ((pre ++ [⟨n, true⟩]) ++ seg :: rest) := by
        simpa using hx
      have hseg := hx'.at_split.1
      simpa [total, Nat.add_assoc] using hseg

theorem Tiled.only_sizeWithNext (h : Tiled A m (pre ++ ⟨n, true⟩ :: post))
    (hx : Untagged A x (pre ++ ⟨n, true⟩ :: post)) :
    (Section.sizeWithNext A (A.base + total pre)).Only access
      (Access.Avoids x) m := by
  have hself := hx.at_split.1
  simp only [Section.sizeWithNext, Prog.only_bind, Prog.only_ite,
    Prog.only_pure, run_blockSize, run_nextBlock, run_mergeable, and_true]
  refine ⟨only_blockSize hself, only_nextBlock hself,
    only_mergeable fun next hnext => h.next_clear hx hnext, ?_,
    fun _ => trivial⟩
  cases hnext : nextBlock A m (A.base + total pre) with
  | none => exact fun hmerge => absurd hmerge Bool.false_ne_true
  | some next => exact fun _ => only_blockSize (h.next_clear hx hnext)

/-- The merged block ends where some block ends. -/
theorem Tiled.end_clear (h : Tiled A m (pre ++ ⟨n, true⟩ :: post))
    (hx : Untagged A x (pre ++ ⟨n, true⟩ :: post)) :
    n ≤ sizeWithNext A m (A.base + total pre) ∧
      A.base + total pre + sizeWithNext A m (A.base + total pre) < 2 ^ 64 ∧
      ClearOf x
        (A.base + total pre + sizeWithNext A m (A.base + total pre) - 16) := by
  have hend := h.end_lt
  obtain ⟨right, post', rfl, hright, -, hsize⟩ := sizeWithNext_spec h
  rw [hsize]
  simp only [total_append, total] at hend
  refine ⟨Nat.le_add_right _ _, by omega, ?_⟩
  rcases hright with rfl | ⟨k, rfl⟩
  · exact hx.at_split.2
  · have hx' : Untagged A x
        ((pre ++ [⟨n, true⟩]) ++ ⟨k, false⟩ :: post') := by
      simpa using hx
    simpa [total, Nat.add_assoc] using hx'.at_split.2

/-- The block in front of the one that is freed. -/
theorem Tiled.prev_clear (h : Tiled A m (pre ++ ⟨n, true⟩ :: post))
    (hx : Untagged A x (pre ++ ⟨n, true⟩ :: post)) {prev : Nat}
    (hprev : prevBlock A m (A.base + total pre) = some prev) :
    prev + (readTag m prev).blockSize = A.base + total pre ∧
      32 ≤ (readTag m prev).blockSize ∧ ClearOf x prev ∧
      ClearOf x (A.base + total pre - 16) := by
  have hend := h.end_lt
  obtain ⟨htagsPre, -⟩ := tags_append.mp h.tags
  rcases List.eq_nil_or_concat' pre with rfl | ⟨pre', seg, rfl⟩
  · simp [total, prevBlock] at hprev
  · obtain ⟨-, hheader, hfooter, -⟩ := tags_append.mp htagsPre
    have hleast := h.least seg (by simp)
    have hx' : Untagged A x (pre' ++ seg :: ⟨n, true⟩ :: post) := by
      simpa using hx
    have hlast : A.base + total (pre' ++ [seg]) =
        A.base + total pre' + seg.size := by
      simp [total, Nat.add_assoc]
    simp only [total_append, total] at hend
    have hprev' := prevBlock_eq A hfooter (Nat.le_add_right _ _) hleast
      (by omega)
    rw [hlast] at hprev ⊢
    rw [hprev', Option.some.injEq] at hprev
    subst hprev
    rw [hheader]
    exact ⟨rfl, hleast, hx'.at_split⟩

theorem Tiled.only_prevBlock (h : Tiled A m (pre ++ ⟨n, true⟩ :: post))
    (hx : Untagged A x (pre ++ ⟨n, true⟩ :: post)) :
    (Section.prevBlock A (A.base + total pre)).Only access
      (Access.Avoids x) m := by
  rw [Section.prevBlock]
  split
  · exact Prog.only_pure ..
  · next hne =>
    have hsome : prevBlock A m (A.base + total pre) = some _ := if_neg hne
    obtain ⟨hsum, hleast, -, hfoot⟩ := h.prev_clear hx hsome
    have hend := h.end_lt
    simp only [total_append, total] at hend
    rw [Prog.only_bind, sub64_eq (by unfold kTagSize; omega) (by omega)]
    exact ⟨only_blockSize hfoot, Prog.only_pure ..⟩

/-- `free` reads and writes tags of the blocks that are there, only. -/
theorem Tiled.only_free (h : Tiled A m (pre ++ ⟨n, true⟩ :: post))
    (hx : Untagged A x (pre ++ ⟨n, true⟩ :: post)) :
    (Section.free A (A.base + total pre + 16)).Only access
      (Access.Avoids x) m := by
  have hend := h.end_lt
  have hn : 32 ≤ n := h.least ⟨n, true⟩ (by simp)
  have hself := hx.at_split.1
  obtain ⟨hle, hfits, hfoot⟩ := h.end_clear hx
  simp only [total_append, total] at hend
  have hheader : headerOf (A.base + total pre + 16) = A.base + total pre := by
    unfold headerOf kTagSize
    rw [sub64_eq (by omega) (by omega), Nat.add_sub_cancel]
  simp only [Section.free, hheader, Prog.only_bind, Prog.only_ite,
    run_sizeWithNext, run_prevBlock, run_mergeable, run_blockSize]
  refine ⟨h.only_sizeWithNext hx, h.only_prevBlock hx,
    only_mergeable fun prev hprev => (h.prev_clear hx hprev).2.2.1, ?_,
    fun _ => only_writeTags (by omega) hfits hself hfoot⟩
  cases hprev : prevBlock A m (A.base + total pre) with
  | none => exact fun hmerge => absurd hmerge Bool.false_ne_true
  | some prev =>
      obtain ⟨hsum, hleast, hclear, -⟩ := h.prev_clear hx hprev
      rw [Option.getD_some]
      refine fun _ => ⟨only_blockSize hclear, ?_⟩
      rw [add64_eq (by omega)]
      refine only_writeTags (by omega) (by omega) hclear ?_
      rwa [Nat.add_comm _ (readTag m prev).blockSize, ← Nat.add_assoc, hsum]

end Free

end Footprint

end Heap

end IntroOs
