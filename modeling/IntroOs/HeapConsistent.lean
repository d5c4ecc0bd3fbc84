/-
The representation invariant of the heap, read off the bytes.  In every state
of every run the headers tile the arena, footers mirror headers, the walks
forward and backward agree, and free blocks are maximal.
-/
import IntroOs.HeapRun

namespace IntroOs

namespace Heap

open ByteMem Tiling

/-- The blocks lie one after the other from `lo` to `hi`. -/
def Covers (lo hi : Nat) : List Block → Prop
  | [] => lo = hi
  | block :: rest => block.offset = lo ∧ Covers (lo + block.size) hi rest

/-- The address of a block's header. -/
def addrOf (A : Arena) (block : Block) : Nat := A.base + block.offset

/-- What the bytes of the arena say about themselves and about the live
allocations.  `returns` makes sure that no run ends in an endless search. -/
structure Consistent (A : Arena) (s : State) : Prop where
  tiles : Covers 0 kArenaSize (blocks A s.mem)
  sizes : ∀ block ∈ blocks A s.mem, block.size % 16 = 0 ∧ 32 ≤ block.size
  footers : ∀ block ∈ blocks A s.mem,
    readTag s.mem (footerOf s.mem (addrOf A block)) =
      readTag s.mem (addrOf A block)
  linked : (blocks A s.mem).IsChain fun left right =>
    nextBlock A s.mem (addrOf A left) = some (addrOf A right) ∧
      prevBlock A s.mem (addrOf A right) = some (addrOf A left)
  next_none : ∀ block ∈ blocks A s.mem,
    nextBlock A s.mem (addrOf A block) = none ↔
      (blocks A s.mem).getLast? = some block
  prev_none : ∀ block ∈ blocks A s.mem,
    prevBlock A s.mem (addrOf A block) = none ↔
      (blocks A s.mem).head? = some block
  live_iff : ∀ ptr, (∃ a ∈ s.live, a.ptr = ptr) ↔
    ∃ block ∈ blocks A s.mem, block.used = true ∧
      ptr = payloadOf (addrOf A block)
  live_nodup : (s.live.map Alloc.ptr).Nodup
  coalesced : (blocks A s.mem).IsChain fun left right =>
    left.used = true ∨ right.used = true
  returns : ∀ size, Fits size → (malloc A s.mem size).isSome

theorem covers_place (lo : Nat) (segs : List Seg) :
    Covers lo (lo + total segs) (place lo segs) := by
  induction segs generalizing lo with
  | nil => rfl
  | cons seg rest ih =>
      refine ⟨rfl, ?_⟩
      simp only [total, ← Nat.add_assoc]
      exact ih (lo + seg.size)

/-- Neighbouring blocks, read off the segments they come from. -/
theorem isChain_place {R : Block → Block → Prop} {start : Nat}
    {segs : List Seg}
    (h : ∀ pre left right post, segs = pre ++ left :: right :: post →
      R ⟨start + total pre, left.size, left.used⟩
        ⟨start + total pre + left.size, right.size, right.used⟩) :
    (place start segs).IsChain R := by
  induction segs generalizing start with
  | nil => exact List.isChain_nil
  | cons seg rest ih =>
      cases rest with
      | nil => exact List.isChain_singleton _
      | cons next rest =>
          have htail : (place (start + seg.size) (next :: rest)).IsChain R := by
            apply ih
            intro pre left right post heq
            have hcons := h (seg :: pre) left right post (by simp [heq])
            simpa only [total, Nat.add_assoc] using hcons
          have hhead := h [] seg next rest rfl
          exact List.isChain_cons_cons.mpr ⟨hhead, htail⟩

theorem place_getLast? (start : Nat) (pre : List Seg) (seg : Seg) :
    (place start (pre ++ [seg])).getLast? =
      some ⟨start + total pre, seg.size, seg.used⟩ := by
  simp [place]

namespace Tiled

variable {A : Arena} {m : Mem} {segs : List Seg}

theorem linked (h : Tiled A m segs) :
    (place 0 segs).IsChain fun left right =>
      nextBlock A m (addrOf A left) = some (addrOf A right) ∧
        prevBlock A m (addrOf A right) = some (addrOf A left) := by
  apply isChain_place
  intro pre left right post heq
  have htags := h.tags
  have hend := h.end_eq
  have hfits := h.end_lt
  rw [heq, tags_append] at htags
  obtain ⟨-, hheader, hfooter, -⟩ := htags
  have hleft := h.least left (by simp [heq])
  have hright := h.least right (by simp [heq])
  simp only [heq, total_append, total] at hend hfits
  simp only [addrOf, Nat.zero_add, ← Nat.add_assoc]
  constructor
  · rw [nextBlock_eq A hheader (by omega), if_pos (by omega)]
  · exact prevBlock_eq A hfooter (by omega) hleft (by omega)

theorem next_none (h : Tiled A m segs) {block : Block}
    (hblock : block ∈ place 0 segs) :
    nextBlock A m (addrOf A block) = none ↔
      (place 0 segs).getLast? = some block := by
  obtain ⟨pre, post, hsegs, hoffset⟩ := exists_split_of_mem_place hblock
  obtain ⟨-, -, -, -, hheader, -⟩ := h.block_spec hblock
  have hend := h.end_eq
  rw [Nat.zero_add] at hoffset
  have hnext : nextBlock A m (addrOf A block) =
      cursor (A.base + block.offset + block.size) post := by
    apply nextBlock_cursor A hheader
    · intro s hs
      exact h.seg_pos s (by simp [hsegs, hs])
    · rw [← hend, hsegs, hoffset]
      simp [total, Nat.add_assoc]
  rw [hnext]
  rcases List.eq_nil_or_concat' post with rfl | ⟨init, last, rfl⟩
  · have hlast := place_getLast? 0 pre ⟨block.size, block.used⟩
    rw [hsegs, hlast, Nat.zero_add, ← hoffset]
    exact ⟨fun _ => rfl, fun _ => rfl⟩
  · have hlast : (place 0 segs).getLast? = some
        ⟨total (pre ++ ⟨block.size, block.used⟩ :: init), last.size,
          last.used⟩ := by
      rw [hsegs, List.append_cons, ← List.append_assoc, place_getLast?]
      simp
    have hpos := h.least ⟨block.size, block.used⟩ (by simp [hsegs])
    rw [hlast]
    constructor
    · intro hnone
      cases init with
      | nil => simp [cursor] at hnone
      | cons head tail => simp [cursor] at hnone
    · intro heq
      have hoff := congrArg Block.offset (Option.some.inj heq)
      simp only [total_append, total] at hoff hpos
      omega

theorem prev_none (h : Tiled A m segs) {block : Block}
    (hblock : block ∈ place 0 segs) :
    prevBlock A m (addrOf A block) = none ↔
      (place 0 segs).head? = some block := by
  cases segs with
  | nil => simp [place] at hblock
  | cons seg rest =>
      have hfirst : (⟨0, seg.size, seg.used⟩ : Block) ∈
          place 0 (seg :: rest) := by
        simp [place]
      have hiff : prevBlock A m (addrOf A block) = none ↔ block.offset = 0 := by
        have haddr : addrOf A block = A.base ↔ block.offset = 0 := by
          unfold addrOf
          omega
        simp [prevBlock, haddr]
      rw [hiff]
      simp only [place, List.head?_cons, Option.some.injEq]
      constructor
      · intro hzero
        exact eq_of_offset_eq h.seg_pos hfirst hblock hzero.symm
      · rintro rfl
        rfl

theorem malloc_isSome (h : Tiled A m segs) (size : Nat) :
    (malloc A m size).isSome := by
  by_cases hsize : size = 0
  · simp [malloc, hsize]
  · rw [malloc_eq h hsize]
    cases firstFit (neededFor size) segs with
    | none => rfl
    | some offset => rfl

theorem payloadOf_addrOf (h : Tiled A m segs) {block : Block}
    (hblock : block ∈ place 0 segs) :
    payloadOf (addrOf A block) = ptrOf A block := by
  obtain ⟨hend, hleast, -⟩ := h.block_spec hblock
  have hfits := A.fits
  unfold payloadOf addrOf ptrOf kTagSize
  exact add64_eq (by omega)

end Tiled

theorem Inv.consistent {A : Arena} {s : State} {segs : List Seg}
    (h : Inv A s segs) : Consistent A s := by
  have htiled := h.tiled
  have hblocks := blocks_eq htiled
  constructor
  · rw [hblocks, ← htiled.valid.total_eq]
    simpa using covers_place 0 segs
  · rw [hblocks]
    intro block hblock
    obtain ⟨-, hleast, -, hunit, -⟩ := htiled.block_spec hblock
    exact ⟨Nat.mod_eq_zero_of_dvd hunit, hleast⟩
  · rw [hblocks]
    intro block hblock
    obtain ⟨-, -, -, -, hheader, hfooter⟩ := htiled.block_spec hblock
    rw [addrOf, htiled.footerOf_block hblock, hheader, hfooter]
  · rw [hblocks]
    exact htiled.linked
  · rw [hblocks]
    exact fun block hblock => htiled.next_none hblock
  · rw [hblocks]
    exact fun block hblock => htiled.prev_none hblock
  · rw [hblocks]
    intro ptr
    have hiff := h.mem_live_iff ptr
    simp only [List.mem_map, mem_live] at hiff
    rw [hiff]
    constructor
    · rintro ⟨block, ⟨hblock, hused⟩, rfl⟩
      exact ⟨block, hblock, hused, (htiled.payloadOf_addrOf hblock).symm⟩
    · rintro ⟨block, hblock, hused, rfl⟩
      exact ⟨block, ⟨hblock, hused⟩, (htiled.payloadOf_addrOf hblock).symm⟩
  · exact h.nodup
  · rw [hblocks]
    apply isChain_place
    intro pre left right post heq
    have hapart := htiled.valid.apart
    rw [heq] at hapart
    exact (List.isChain_append_cons_cons.mp hapart).2.1
  · intro size _
    exact htiled.malloc_isSome size

/-- The heap's representation invariant holds in every state of every run. -/
theorem reachable_consistent (A : Arena) {s : State} (h : Reachable A s) :
    Consistent A s := by
  obtain ⟨segs, hinv⟩ := h.inv
  exact hinv.consistent

/-- An arena at a concrete address. -/
def sampleArena : Arena := ⟨4096, by decide, by decide, by decide⟩

/-- A run of one call: the first `malloc(64)` takes the front of the arena. -/
theorem sampleArena_malloc (m : Mem) :
    Heap.malloc sampleArena (init sampleArena m) 64 =
      some (carve sampleArena (init sampleArena m) 4096 96, some 4112) := by
  have hneeded : neededFor 64 = 96 := neededFor_eq (by unfold Fits; omega)
  rw [malloc_eq (init_tiled sampleArena m) (by omega), hneeded]
  have hptr : payloadOf 4096 = 4112 := add64_eq (by decide)
  simp [firstFit, kArenaSize, sampleArena, hptr]

theorem sampleArena_reachable (m : Mem) :
    Reachable sampleArena
      ⟨carve sampleArena (init sampleArena m) 4096 96, [⟨4112, 64⟩]⟩ := by
  have hfits : Fits 64 := by
    unfold Fits
    omega
  have hstep := Step.malloc (s := ⟨init sampleArena m, []⟩) hfits
    (sampleArena_malloc m)
  rw [Option.elim_some] at hstep
  exact .step (.init m) hstep

theorem sampleOne_tiled :
    Tiled sampleArena (carve sampleArena (init sampleArena fun _ => 0) 4096 96)
      [⟨96, true⟩, ⟨kArenaSize - 96, false⟩] := by
  have hinit : Tiled sampleArena (init sampleArena fun _ => 0)
      ([] ++ [⟨kArenaSize, false⟩] ++ []) := init_tiled sampleArena _
  obtain ⟨new, htiled, -, hnew⟩ := carve_spec hinit
    (show 96 ≤ kArenaSize by decide) (by decide) (by decide)
  rcases hnew with ⟨-, rfl⟩ | ⟨hsmall, -⟩
  · exact htiled
  · exact absurd hsmall (by decide)

/-- The memory after `malloc(64)` and `malloc(32)`. -/
def sampleTwo : Mem :=
  carve sampleArena (carve sampleArena (init sampleArena fun _ => 0) 4096 96)
    4192 64

theorem sampleTwo_malloc :
    Heap.malloc sampleArena
        (carve sampleArena (init sampleArena fun _ => 0) 4096 96) 32 =
      some (sampleTwo, some 4208) := by
  have hneeded : neededFor 32 = 64 := neededFor_eq (by unfold Fits; omega)
  have hptr : payloadOf 4192 = 4208 := add64_eq (by decide)
  rw [malloc_eq sampleOne_tiled (by omega), hneeded]
  simp [firstFit, kArenaSize, sampleArena, sampleTwo, hptr]

theorem sampleTwo_reachable :
    Reachable sampleArena ⟨sampleTwo, [⟨4208, 32⟩, ⟨4112, 64⟩]⟩ := by
  have hfits : Fits 32 := by
    unfold Fits
    omega
  have hstep := Step.malloc
    (s := ⟨carve sampleArena (init sampleArena fun _ => 0) 4096 96,
      [⟨4112, 64⟩]⟩) hfits sampleTwo_malloc
  rw [Option.elim_some] at hstep
  exact .step (sampleArena_reachable fun _ => 0) hstep

/-- The first block is freed, which leaves a hole in front of the second. -/
theorem sampleHole_step :
    Step sampleArena ⟨sampleTwo, [⟨4208, 32⟩, ⟨4112, 64⟩]⟩
      (.free (some 4112))
      ⟨Heap.free sampleArena sampleTwo (some 4112), [⟨4208, 32⟩]⟩ := by
  have hmem : (⟨4112, 64⟩ : Alloc) ∈
      [(⟨4208, 32⟩ : Alloc), ⟨4112, 64⟩] := by decide
  have hstep := Step.free (A := sampleArena)
    (s := ⟨sampleTwo, [⟨4208, 32⟩, ⟨4112, 64⟩]⟩) hmem
  have hlive : ([⟨4208, 32⟩, ⟨4112, 64⟩] : List Alloc).filter
      (fun b => b.ptr ≠ 4112) = [⟨4208, 32⟩] := by decide
  rwa [hlive] at hstep

theorem sampleHole_reachable :
    Reachable sampleArena
      ⟨Heap.free sampleArena sampleTwo (some 4112), [⟨4208, 32⟩]⟩ :=
  .step sampleTwo_reachable sampleHole_step

theorem reachable_consistent_sample :
    Consistent sampleArena
      ⟨carve sampleArena (init sampleArena fun _ => 0) 4096 96,
        [⟨4112, 64⟩]⟩ :=
  reachable_consistent sampleArena (sampleArena_reachable fun _ => 0)

end Heap

end IntroOs
