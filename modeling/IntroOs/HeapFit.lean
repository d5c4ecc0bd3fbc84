/-
Which requests `malloc` grants, and where: exactly those that a run of free
bytes has room for, at the start of the lowest such run.  Requests whose block
size wraps around are granted too little.
-/
import IntroOs.HeapCanonical

namespace IntroOs

namespace Heap

open ByteMem Tiling

/-- `[lo, hi)` are the offsets of a maximal run of arena bytes that belong to
no live block. -/
def FreeBytes (A : Arena) (m : Mem) (lo hi : Nat) : Prop :=
  FreeRun (liveBlocks A m) kArenaSize lo hi

/-- The live blocks end at offset `lo` or before. -/
def Within (A : Arena) (m : Mem) (lo : Nat) : Prop :=
  ∀ block ∈ liveBlocks A m, block.offset + block.size ≤ lo

theorem Within.mono {A : Arena} {m : Mem} {lo hi : Nat} (h : Within A m lo)
    (hle : lo ≤ hi) : Within A m hi := fun block hblock =>
  (h block hblock).trans hle

theorem init_within (A : Arena) (m : Mem) : Within A (init A m) 0 := by
  intro block hblock
  rw [liveBlocks_eq (init_tiled A m), live_cons_free, live_nil] at hblock
  cases hblock

theorem Inv.free_within {A : Arena} {s : State} {segs : List Seg}
    (h : Inv A s segs) {a : Alloc} (ha : a ∈ s.live) {lo : Nat}
    (hwithin : Within A s.mem lo) :
    Within A (Heap.free A s.mem (some a.ptr)) lo := by
  obtain ⟨freed, hfreed, hptr, -⟩ := h.exists_block ha
  obtain ⟨segs', htiled, hlive, -⟩ := free_used_spec h.tiled hfreed
  intro block hblock
  rw [hptr, liveBlocks_eq htiled, hlive, ← liveBlocks_eq h.tiled] at hblock
  exact hwithin block hblock.1

namespace Tiled

variable {A : Arena} {m : Mem} {segs : List Seg}

theorem freeBytes_iff (h : Tiled A m segs) {lo hi : Nat} :
    FreeBytes A m lo hi ↔ lo < hi ∧ ⟨lo, hi - lo, false⟩ ∈ place 0 segs := by
  rw [FreeBytes, liveBlocks_eq h, ← h.valid.total_eq]
  constructor
  · intro hrun
    exact ⟨hrun.lt, mem_of_freeRun h.seg_pos h.valid.apart hrun⟩
  · rintro ⟨hlt, hmem⟩
    have hrun := freeRun_of_mem h.seg_pos h.valid.apart hmem
    rwa [Nat.add_sub_cancel' (Nat.le_of_lt hlt)] at hrun

/-- A free segment with room for the request is a run with room for it. -/
theorem exists_run_iff (h : Tiled A m segs) {needed : Nat} :
    (∃ lo hi, FreeBytes A m lo hi ∧ needed ≤ hi - lo) ↔
      ∃ seg ∈ segs, seg.used = false ∧ needed ≤ seg.size := by
  constructor
  · rintro ⟨lo, hi, hrun, hroom⟩
    obtain ⟨-, hmem⟩ := h.freeBytes_iff.mp hrun
    obtain ⟨pre, post, rfl, -⟩ := exists_split_of_mem_place hmem
    exact ⟨⟨hi - lo, false⟩, by simp, rfl, hroom⟩
  · rintro ⟨⟨n, used⟩, hseg, rfl, hroom⟩
    have hpos := h.seg_pos _ hseg
    obtain ⟨pre, post, rfl⟩ := List.append_of_mem hseg
    have hmem := mem_place_of_split 0 pre post ⟨n, false⟩
    refine ⟨total pre, total pre + n, h.freeBytes_iff.mpr ⟨?_, ?_⟩, ?_⟩
    · simp only at hpos
      omega
    · rw [Nat.add_sub_cancel_left]
      simpa using hmem
    · rwa [Nat.add_sub_cancel_left]

/-- The segment first fit settles on is the lowest run with room. -/
theorem lowest_of_firstFit (h : Tiled A m segs) {needed offset : Nat}
    (hfirst : firstFit needed segs = some offset) :
    ∃ pre n post, segs = pre ++ [⟨n, false⟩] ++ post ∧ offset = total pre ∧
      FreeBytes A m offset (offset + n) ∧ needed ≤ n ∧
      ∀ lo hi, FreeBytes A m lo hi → needed ≤ hi - lo → offset ≤ lo := by
  obtain ⟨pre, n, post, rfl, rfl, hfit, hpre⟩ := firstFit_eq_some hfirst
  have hpos := h.seg_pos ⟨n, false⟩ (by simp)
  have hmem := mem_place_of_split 0 pre post ⟨n, false⟩
  simp only [Nat.zero_add] at hmem hpos
  refine ⟨pre, n, post, by simp, rfl, h.freeBytes_iff.mpr ⟨by omega, ?_⟩, hfit,
    fun lo hi hrun hroom => ?_⟩
  · rwa [Nat.add_sub_cancel_left]
  · by_contra hlt
    obtain ⟨hlohi, hplace⟩ := h.freeBytes_iff.mp hrun
    rw [place_append, List.mem_append] at hplace
    rcases hplace with hbefore | hafter
    · obtain ⟨pre', post', rfl, -⟩ := exists_split_of_mem_place hbefore
      rcases hpre ⟨hi - lo, false⟩ (by simp) with hused | hsmall
      · cases hused
      · simp only at hsmall
        omega
    · have hbound := (place_bounds hafter).1
      simp only at hbound
      omega

/-- What `malloc` does with a request it has room for. -/
theorem malloc_granted (h : Tiled A m segs) {size offset : Nat}
    (hsize : size ≠ 0) (hfits : Fits size)
    (hfirst : firstFit (neededFor size) segs = some offset) :
    ∃ m' n, malloc A m size = some (m', some (payloadOf (A.base + offset))) ∧
      (n = neededFor size ∨ n = neededFor size + 16) ∧
      (∀ block, block ∈ liveBlocks A m' ↔
        block = ⟨offset, n, true⟩ ∨ block ∈ liveBlocks A m) ∧
      (∀ block ∈ liveBlocks A m, ∀ x, block.offset ≤ x →
        x < block.offset + block.size → m' (A.base + x) = m (A.base + x)) := by
  obtain ⟨pre, n, post, rfl, rfl, hrun, hfit, -⟩ := h.lowest_of_firstFit hfirst
  have hneeded := neededFor_eq hfits
  obtain ⟨new, htiled, hout, hnew⟩ := carve_spec h hfit
    (by rw [hneeded]; omega) (by rw [hneeded]; omega)
  have hunit : 16 ∣ n := h.valid.unit_dvd ⟨n, false⟩ (by simp)
  have hlive : ∃ k, (k = neededFor size ∨ k = neededFor size + 16) ∧
      live (total pre) new = [⟨total pre, k, true⟩] ∧ total new = n := by
    rcases hnew with ⟨hsplit, rfl⟩ | ⟨hwhole, rfl⟩
    · refine ⟨neededFor size, .inl rfl, ?_, by simp only [total]; omega⟩
      rw [live_cons_used, live_cons_free, live_nil]
    · refine ⟨n, by omega, ?_, rfl⟩
      rw [live_cons_used, live_nil]
  obtain ⟨k, hk, hlive, htotal⟩ := hlive
  refine ⟨_, k, by rw [malloc_eq h hsize, hfirst], hk, fun block => ?_, ?_⟩
  · rw [liveBlocks_eq htiled, liveBlocks_eq h]
    simp only [live_append, Nat.zero_add, hlive, live_cons_free, live_nil,
      total_append, total, htotal, List.mem_append, List.mem_singleton,
      List.append_nil, Nat.add_zero]
    tauto
  · intro block hblock x hlo hhi
    refine hout _ ?_
    by_contra hinside
    exact hrun.isFree x (by omega) (by omega) ⟨block, hblock, hlo, hhi⟩

/-- A request that fits above the live blocks is granted. -/
theorem malloc_within (h : Tiled A m segs) {size lo : Nat}
    (hwithin : Within A m lo) (hsize : size ≠ 0) (hfits : Fits size)
    (hroom : lo + neededFor size ≤ kArenaSize) :
    ∃ m' ptr, malloc A m size = some (m', some ptr) ∧
      Within A m' (lo + neededFor size + 16) := by
  have hneeded := neededFor_eq hfits
  have htotal := h.valid.total_eq
  have hlive : ∀ block ∈ live 0 segs, block.offset + block.size ≤ lo := by
    intro block hblock
    rw [← liveBlocks_eq h] at hblock
    exact hwithin block hblock
  obtain ⟨pre, n, rfl, hpre⟩ :=
    exists_last_free h.valid.apart hlive (by omega)
  have hfit : neededFor size ≤ n := by
    simp only [total_append, total] at htotal
    omega
  obtain ⟨offset, hoffset, hfirst⟩ := firstFit_le pre hfit
  obtain ⟨m', k, hmalloc, hk, hblocks, -⟩ := h.malloc_granted hsize hfits hfirst
  refine ⟨m', _, hmalloc, fun block hblock => ?_⟩
  rcases (hblocks block).mp hblock with rfl | hold
  · simp only
    omega
  · have hle := hwithin block hold
    omega

/-- A run of free bytes with room is enough. -/
theorem firstFit_of_run (h : Tiled A m segs) {needed lo hi : Nat}
    (hrun : FreeBytes A m lo hi) (hroom : needed ≤ hi - lo) :
    ∃ offset, firstFit needed segs = some offset := by
  obtain ⟨seg, hseg, hfree, hsize⟩ :=
    h.exists_run_iff.mp ⟨lo, hi, hrun, hroom⟩
  cases hfirst : firstFit needed segs with
  | some offset => exact ⟨offset, rfl⟩
  | none =>
      rcases firstFit_eq_none.mp hfirst seg hseg with hused | hsmall
      · rw [hfree] at hused
        cases hused
      · omega

end Tiled

/-- In every reachable heap, for every request whose block size does not wrap:
`malloc` returns, with a pointer exactly when a run of free bytes has room.
The new block then starts the lowest such run and is at most 16 bytes larger
than needed, and every other live block keeps its place, size and bytes; a
null result leaves the heap unchanged. -/
theorem reachable_malloc_exact (A : Arena) {s : State} (h : Reachable A s)
    {size : Nat} (hsize : 0 < size) (hfits : Fits size) :
    ∃ m result, malloc A s.mem size = some (m, result) ∧
      (result.isSome ↔
        ∃ lo hi, FreeBytes A s.mem lo hi ∧ neededFor size ≤ hi - lo) ∧
      (result = none → m = s.mem) ∧
      ∀ ptr, result = some ptr → ∃ lo hi n,
        FreeBytes A s.mem lo hi ∧ neededFor size ≤ hi - lo ∧
        (∀ lo' hi', FreeBytes A s.mem lo' hi' → neededFor size ≤ hi' - lo' →
          lo ≤ lo') ∧
        ptr = payloadOf (A.base + lo) ∧
        (n = neededFor size ∨ n = neededFor size + 16) ∧
        (∀ block, block ∈ liveBlocks A m ↔
          block = ⟨lo, n, true⟩ ∨ block ∈ liveBlocks A s.mem) ∧
        ∀ block ∈ liveBlocks A s.mem, ∀ x, block.offset ≤ x →
          x < block.offset + block.size →
            m (A.base + x) = s.mem (A.base + x) := by
  obtain ⟨segs, hinv⟩ := h.inv
  have htiled := hinv.tiled
  cases hfirst : firstFit (neededFor size) segs with
  | none =>
      refine ⟨s.mem, none, ?_, ?_, fun _ => rfl, nofun⟩
      · rw [malloc_eq htiled (by omega), hfirst]
      · simp only [Option.isSome_none, Bool.false_eq_true, false_iff]
        rintro ⟨lo, hi, hrun, hroom⟩
        obtain ⟨offset, hsome⟩ := htiled.firstFit_of_run hrun hroom
        rw [hfirst] at hsome
        cases hsome
  | some offset =>
      obtain ⟨m, k, hmalloc, hk, hlive, hbytes⟩ :=
        htiled.malloc_granted (by omega) hfits hfirst
      obtain ⟨pre, n, post, rfl, rfl, hrun, hfit, hlowest⟩ :=
        htiled.lowest_of_firstFit hfirst
      refine ⟨m, _, hmalloc, ?_, nofun, ?_⟩
      · simp only [Option.isSome_some, true_iff]
        exact ⟨total pre, total pre + n, hrun, by omega⟩
      · rintro ptr ⟨⟩
        exact ⟨total pre, total pre + n, k, hrun, by omega, hlowest, rfl, hk,
          hlive, hbytes⟩

/-- A heap with a hole of 96 bytes in front of a live block: 64 bytes go into
the hole, if anywhere. -/
theorem reachable_malloc_exact_sample :
    ∃ m result, malloc sampleArena (free sampleArena sampleTwo (some 4112)) 64 =
        some (m, result) ∧
      (result.isSome ↔ ∃ lo hi,
        FreeBytes sampleArena (free sampleArena sampleTwo (some 4112)) lo hi ∧
          neededFor 64 ≤ hi - lo) := by
  obtain ⟨m, result, hmalloc, hiff, -⟩ := reachable_malloc_exact sampleArena
    sampleHole_reachable (show 0 < 64 by decide) (by unfold Fits; omega)
  exact ⟨m, result, hmalloc, hiff⟩

/-- The headers tile the arena, no block is smaller than its tags, and the
footers mirror the headers. -/
structure WellTiled (A : Arena) (m : Mem) : Prop where
  tiles : Covers 0 kArenaSize (blocks A m)
  sizes : ∀ block ∈ blocks A m, kMinBlockSize ≤ block.size
  footers : ∀ block ∈ blocks A m,
    readTag m (footerOf m (addrOf A block)) = readTag m (addrOf A block)

/-- The call returns null and changes nothing, or it returns the payload of a
used block, with room for `size` bytes in front of its footer, in a well-tiled
arena. -/
def MallocSound (A : Arena) (m : Mem) (size : Nat) : Prop :=
  ∃ m' result, malloc A m size = some (m', result) ∧
    ((result = none ∧ m' = m) ∨
      ∃ ptr, result = some ptr ∧ WellTiled A m' ∧
        ∃ block ∈ blocks A m', block.used = true ∧
          ptr = payloadOf (addrOf A block) ∧
          ptr + size ≤ footerOf m' (addrOf A block))

theorem Inv.wellTiled {A : Arena} {s : State} {segs : List Seg}
    (h : Inv A s segs) : WellTiled A s.mem where
  tiles := h.consistent.tiles
  sizes := fun block hblock => (h.consistent.sizes block hblock).2
  footers := h.consistent.footers

theorem Reachable.malloc_sound {A : Arena} {s : State} (h : Reachable A s)
    {size : Nat} (hfits : Fits size) : MallocSound A s.mem size := by
  obtain ⟨segs, hinv⟩ := h.inv
  obtain ⟨⟨m, result⟩, hmalloc⟩ :=
    Option.isSome_iff_exists.mp (hinv.tiled.malloc_isSome size)
  refine ⟨m, result, hmalloc, ?_⟩
  cases result with
  | none => exact .inl ⟨rfl, malloc_none hinv.tiled hmalloc⟩
  | some ptr =>
      obtain ⟨segs', hafter⟩ := hinv.malloc hfits hmalloc
      obtain ⟨segs'', block, htiled, hplace, rfl, hroom, -, hlive, -⟩ :=
        malloc_spec hinv.tiled hfits hmalloc
      have hused := (mem_live.mp ((hlive block).mpr (.inl rfl))).2
      refine .inr ⟨_, rfl, hafter.wellTiled, block, ?_, hused,
        (htiled.payloadOf_addrOf hplace).symm, ?_⟩
      · rw [blocks_eq htiled]
        exact hplace
      · rw [addrOf, htiled.footerOf_block hplace]
        unfold ptrOf
        omega

/-- Within 48 bytes of the top the block size wraps around. -/
theorem neededFor_wraps {size : Nat} (hlarge : 2 ^ 64 - 48 < size)
    (hsize : size < 2 ^ 64) : neededFor size ≤ 32 := by
  have hround : alignUp size kAlignment = (size + 15) % 2 ^ 64 / 16 * 16 := by
    have hsub : sub64 (add64 size 16) 1 = (size + 15) % 2 ^ 64 := by
      unfold sub64 add64
      omega
    unfold alignUp kAlignment
    rw [hsub]
    exact land_not_fifteen (Nat.mod_lt _ (by decide))
  unfold neededFor
  rw [hround]
  unfold add64 kTagSize
  omega

theorem Covers.mem_le {lo hi : Nat} {list : List Block} (h : Covers lo hi list)
    {block : Block} (hblock : block ∈ list) :
    lo ≤ block.offset ∧ block.offset + block.size ≤ hi := by
  have hle : ∀ {lo : Nat} {list : List Block}, Covers lo hi list → lo ≤ hi := by
    intro lo list h
    induction list generalizing lo with
    | nil => exact Nat.le_of_eq h
    | cons first rest ih =>
        have := ih h.2
        omega
  induction list generalizing lo with
  | nil => cases hblock
  | cons first rest ih =>
      obtain ⟨hfirst, hrest⟩ := h
      rcases List.mem_cons.mp hblock with rfl | hmem
      · have := hle hrest
        omega
      · have := ih hrest hmem
        omega

/-- The footer of the first block lies in the arena. -/
theorem WellTiled.footer_base_le {A : Arena} {m : Mem} (h : WellTiled A m) :
    footerOf m A.base ≤ A.base + kArenaSize := by
  have hfirst : (⟨0, (readTag m A.base).blockSize,
      decide ((readTag m A.base).inUse ≠ 0)⟩ : Block) ∈ blocks A m := by
    have hfuel : loopBound = kArenaSize / kMinBlockSize + 1 := rfl
    rw [blocks, hfuel, arenaBegin, walk, Nat.sub_self]
    exact List.mem_cons_self
  have hsize := (h.tiles.mem_le hfirst).2
  have hleast := h.sizes _ hfirst
  have hfits := A.fits
  simp only [kMinBlockSize, kTagSize] at hsize hleast
  unfold footerOf kTagSize
  rw [add64_eq (by omega), sub64_eq (by omega) (by omega)]
  omega

/-- Without a free block `malloc` returns null, whatever it is asked for. -/
theorem Tiled.malloc_full {A : Arena} {m : Mem} {segs : List Seg}
    (h : Tiled A m segs) (hfull : ∀ seg ∈ segs, seg.used = true) {size : Nat} :
    MallocSound A m size := by
  by_cases hsize : size = 0
  · exact ⟨m, none, by rw [malloc, if_pos hsize], .inl ⟨rfl, rfl⟩⟩
  · have hnone : firstFit (neededFor size) segs = none :=
      firstFit_eq_none.mpr fun seg hseg => .inl (hfull seg hseg)
    exact ⟨m, none, by rw [malloc_eq h hsize, hnone], .inl ⟨rfl, rfl⟩⟩

/-- A free block is enough for a request whose block size wraps to be granted,
with less room than it asked for. -/
theorem Tiled.malloc_unsound {A : Arena} {m : Mem} {segs : List Seg}
    (h : Tiled A m segs) {size : Nat} (hlarge : 2 ^ 64 - 48 < size)
    (hsize : size < 2 ^ 64) {seg : Seg} (hseg : seg ∈ segs)
    (hfree : seg.used = false) : ¬ MallocSound A m size := by
  have hneeded := neededFor_wraps hlarge hsize
  rintro ⟨m', result, hmalloc, hsound⟩
  rw [malloc_eq h (by omega)] at hmalloc
  cases hfirst : firstFit (neededFor size) segs with
  | none =>
      have hleast := h.least seg hseg
      rcases firstFit_eq_none.mp hfirst seg hseg with hused | hsmall
      · exact Bool.false_ne_true (hfree.symm.trans hused)
      · omega
  | some offset =>
      rw [hfirst] at hmalloc
      cases hmalloc
      rcases hsound with ⟨hnone, -⟩ |
        ⟨ptr, hptr, htiled, block, hblock, -, hpayload, hroom⟩
      · cases hnone
      · cases hptr
        obtain ⟨pre, n, post, rfl, rfl, -⟩ := firstFit_eq_some hfirst
        have hplace : (⟨total pre, n, false⟩ : Block) ∈
            place 0 (pre ++ ⟨n, false⟩ :: post) := by
          simpa using mem_place_of_split 0 pre post ⟨n, false⟩
        obtain ⟨hend, hleast, hoffset, -⟩ := h.block_spec hplace
        obtain ⟨-, hin⟩ := htiled.tiles.mem_le hblock
        have hsizes : 32 ≤ block.size := htiled.sizes block hblock
        have hfits := A.fits
        have haligned := A.aligned
        have hnonnull := A.nonnull
        simp only at hend hleast hoffset
        unfold payloadOf addrOf kTagSize at hpayload
        unfold payloadOf kTagSize at hroom
        unfold kAlignment at haligned
        rw [add64_eq (by omega), add64_eq (by omega)] at hpayload
        rw [add64_eq (by omega)] at hroom
        have hfooter : footerOf (carve A m (A.base + total pre)
            (neededFor size)) (addrOf A block) < 2 ^ 64 := by
          unfold footerOf sub64
          exact Nat.mod_lt _ (by decide)
        -- so close to the top the payload can only be the one at address 32
        have hbase : addrOf A block = A.base := by
          unfold addrOf
          omega
        have hfront := htiled.footer_base_le
        rw [hbase] at hroom
        unfold kArenaSize at hfront
        omega

/-- For every heap reached by requests whose block sizes do not wrap: a request
is sound exactly when its own block size does not wrap or no block is free.
Hence exactly the requests that do not wrap are sound on all of these heaps. -/
theorem reachable_malloc_sound_iff (A : Arena) {size : Nat}
    (hsize : size < 2 ^ 64) :
    (∀ s, Reachable A s → (MallocSound A s.mem size ↔
      Fits size ∨ ∀ block ∈ blocks A s.mem, block.used = true)) ∧
    ((∀ s, Reachable A s → MallocSound A s.mem size) ↔ Fits size) := by
  have hlarge : ¬ Fits size → 2 ^ 64 - 48 < size := by
    intro hwraps
    unfold Fits at hwraps
    omega
  refine ⟨fun s hs => ⟨fun hsound => ?_, ?_⟩, fun hall => ?_, fun hfits s hs =>
    hs.malloc_sound hfits⟩
  · by_contra hneither
    obtain ⟨hwraps, hopen⟩ := not_or.mp hneither
    simp only [not_forall] at hopen
    obtain ⟨block, hblock, hunused⟩ := hopen
    obtain ⟨segs, hinv⟩ := hs.inv
    rw [blocks_eq hinv.tiled] at hblock
    obtain ⟨pre, post, rfl, -⟩ := exists_split_of_mem_place hblock
    exact hinv.tiled.malloc_unsound (hlarge hwraps) hsize
      (List.mem_append_right pre List.mem_cons_self)
      (Bool.eq_false_of_not_eq_true hunused) hsound
  · rintro (hfits | hfull)
    · exact hs.malloc_sound hfits
    · obtain ⟨segs, hinv⟩ := hs.inv
      refine hinv.tiled.malloc_full fun seg hseg => ?_
      obtain ⟨pre, post, rfl⟩ := List.append_of_mem hseg
      exact hfull _ (by
        rw [blocks_eq hinv.tiled]
        exact mem_place_of_split 0 pre post seg)
  · by_contra hwraps
    exact (init_tiled A fun _ => 0).malloc_unsound (hlarge hwraps) hsize
      List.mem_cons_self rfl (hall ⟨init A fun _ => 0, []⟩ (.init _))

/-- On a heap with a hole, 64 bytes are a sound request and 2^64 - 1 are not. -/
theorem reachable_malloc_sound_iff_hole :
    MallocSound sampleArena (free sampleArena sampleTwo (some 4112)) 64 ∧
      ¬ ∀ s, Reachable sampleArena s →
        MallocSound sampleArena s.mem (2 ^ 64 - 1) := by
  obtain ⟨hheap, -⟩ := reachable_malloc_sound_iff sampleArena
    (show 64 < 2 ^ 64 by decide)
  obtain ⟨-, hall⟩ := reachable_malloc_sound_iff sampleArena
    (show 2 ^ 64 - 1 < 2 ^ 64 by decide)
  have hfits : Fits 64 := by
    unfold Fits
    omega
  constructor
  · exact (hheap ⟨free sampleArena sampleTwo (some 4112), [⟨4208, 32⟩]⟩
      sampleHole_reachable).mpr (.inl hfits)
  · rw [hall]
    unfold Fits
    omega

/-- On the initial heap every request within 48 bytes of the top is granted,
with less room than it asked for. -/
theorem malloc_wraps_unsound :
    Reachable sampleArena ⟨init sampleArena fun _ => 0, []⟩ ∧
      ∀ size, 2 ^ 64 - 48 < size → size < 2 ^ 64 →
        ¬ MallocSound sampleArena (init sampleArena fun _ => 0) size := by
  refine ⟨.init fun _ => 0, fun size hlarge hsize => ?_⟩
  exact (init_tiled sampleArena fun _ => 0).malloc_unsound hlarge hsize
    List.mem_cons_self rfl

end Heap

end IntroOs
