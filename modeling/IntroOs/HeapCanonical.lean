/-
The heap's layout is canonical: it is a function of the live blocks alone,
whatever the history of calls that led to it.
-/
import IntroOs.HeapConsistent

namespace IntroOs

namespace Heap

open ByteMem Tiling

/-- The live blocks of a heap, with their offsets and block sizes. -/
def liveBlocks (A : Arena) (m : Mem) : List Block :=
  (blocks A m).filter Block.used

/-- Free the pointers of a list, one after the other. -/
def freeAll (A : Arena) (m : Mem) (ptrs : List Nat) : Mem :=
  ptrs.foldl (fun m ptr => free A m (some ptr)) m

theorem liveBlocks_eq {A : Arena} {m : Mem} {segs : List Seg}
    (h : Tiled A m segs) : liveBlocks A m = live 0 segs := by
  rw [liveBlocks, blocks_eq h, live]

theorem Tiled.segs_eq {A : Arena} {left right : Mem} {segs segs' : List Seg}
    (hleft : Tiled A left segs) (hright : Tiled A right segs')
    (hlive : ∀ block, block ∈ live 0 segs ↔ block ∈ live 0 segs') :
    segs = segs' :=
  eq_of_live_eq hleft.seg_pos hright.seg_pos hleft.valid.apart
    hright.valid.apart
    (hleft.valid.total_eq.trans hright.valid.total_eq.symm) hlive

theorem Tiled.blocks_eq_of_live {A : Arena} {left right : Mem}
    {segs segs' : List Seg} (hleft : Tiled A left segs)
    (hright : Tiled A right segs')
    (hlive : ∀ block, block ∈ live 0 segs ↔ block ∈ live 0 segs') :
    blocks A left = blocks A right := by
  rw [blocks_eq hleft, blocks_eq hright, hleft.segs_eq hright hlive]

/-- Freeing distinct live blocks in any order leaves exactly the other ones
live. -/
theorem Tiled.freeAll_live {A : Arena} {m : Mem} {segs : List Seg}
    {ptrs : List Nat} (h : Tiled A m segs) (hnodup : ptrs.Nodup)
    (hmem : ∀ ptr ∈ ptrs, ptr ∈ (live 0 segs).map (ptrOf A)) :
    ∃ segs', Tiled A (freeAll A m ptrs) segs' ∧
      ∀ block, block ∈ live 0 segs' ↔
        block ∈ live 0 segs ∧ ptrOf A block ∉ ptrs := by
  induction ptrs generalizing m segs with
  | nil => exact ⟨segs, h, by simp⟩
  | cons ptr rest ih =>
      obtain ⟨hnot, hrest⟩ := List.nodup_cons.mp hnodup
      obtain ⟨block, hblock, rfl⟩ :=
        List.mem_map.mp (hmem ptr List.mem_cons_self)
      obtain ⟨segs₁, htiled₁, hlive₁, -⟩ := free_used_spec h hblock
      have hptr : ∀ other ∈ live 0 segs, ptrOf A other = ptrOf A block →
          other = block := by
        intro other hother heq
        apply eq_of_offset_eq h.seg_pos (mem_live.mp hother).1
          (mem_live.mp hblock).1
        unfold ptrOf at heq
        omega
      obtain ⟨segs₂, htiled₂, hlive₂⟩ := ih htiled₁ hrest (by
        intro ptr hrestMem
        obtain ⟨other, hother, rfl⟩ := List.mem_map.mp
          (hmem ptr (List.mem_cons_of_mem _ hrestMem))
        refine List.mem_map_of_mem ((hlive₁ other).mpr ⟨hother, ?_⟩)
        rintro rfl
        exact hnot hrestMem)
      refine ⟨segs₂, htiled₂, ?_⟩
      intro other
      rw [hlive₂, hlive₁, List.mem_cons, not_or]
      constructor
      · rintro ⟨⟨hother, hne⟩, hnotRest⟩
        exact ⟨hother, fun heq => hne (hptr other hother heq), hnotRest⟩
      · rintro ⟨hother, hne, hnotRest⟩
        exact ⟨⟨hother, fun heq => hne (heq ▸ rfl)⟩, hnotRest⟩

/-- A block that is not freed stays where it is, with the size it has. -/
theorem Step.kept {A : Arena} {s t : State} {op : Op} {segs : List Seg}
    (hstep : Step A s op t) (h : Inv A s segs) {block : Block}
    (hblock : block ∈ liveBlocks A s.mem)
    (hfree : ∀ ptr, op = .free (some ptr) → ptr ≠ ptrOf A block) :
    block ∈ liveBlocks A t.mem := by
  have hlive := hblock
  rw [liveBlocks_eq h.tiled] at hlive
  cases hstep with
  | @malloc size m result hfits hmalloc =>
      cases result with
      | none =>
          obtain rfl := malloc_none h.tiled hmalloc
          exact hblock
      | some ptr =>
          obtain ⟨segs', new, htiled, -, -, -, -, hsame, -⟩ :=
            malloc_spec h.tiled hfits hmalloc
          rw [liveBlocks_eq htiled]
          exact (hsame block).mpr (.inr hlive)
  | @free a ha =>
      obtain ⟨freed, hfreed, hptr, -⟩ := h.exists_block ha
      obtain ⟨segs', htiled, hsame, -⟩ := free_used_spec h.tiled hfreed
      rw [hptr, liveBlocks_eq htiled]
      refine (hsame block).mpr ⟨hlive, ?_⟩
      rintro rfl
      exact hfree a.ptr rfl hptr
  | freeNull => exact hblock
  | write ha hlower hupper =>
      rw [liveBlocks_eq (h.write ha hlower hupper).tiled]
      exact hlive

/-- Two histories that leave the same live blocks leave the same heap. -/
theorem blocks_eq_of_liveBlocks_eq {A : Arena} {s t : State}
    (hs : Reachable A s) (ht : Reachable A t)
    (hlive : ∀ block, block ∈ liveBlocks A s.mem ↔ block ∈ liveBlocks A t.mem) :
    blocks A s.mem = blocks A t.mem := by
  obtain ⟨segs, hinv⟩ := hs.inv
  obtain ⟨segs', hinv'⟩ := ht.inv
  rw [liveBlocks_eq hinv.tiled, liveBlocks_eq hinv'.tiled] at hlive
  exact hinv.tiled.blocks_eq_of_live hinv'.tiled hlive

theorem blocks_freeAll_perm {A : Arena} {s : State} (hs : Reachable A s)
    {ptrs ptrs' : List Nat} (hnodup : ptrs.Nodup) (hperm : ptrs.Perm ptrs')
    (hmem : ∀ ptr ∈ ptrs, ptr ∈ s.live.map Alloc.ptr) :
    blocks A (freeAll A s.mem ptrs) = blocks A (freeAll A s.mem ptrs') := by
  obtain ⟨segs, hinv⟩ := hs.inv
  obtain ⟨left, htiled, hlive⟩ := hinv.tiled.freeAll_live hnodup
    fun ptr hptr => (hinv.mem_live_iff ptr).mp (hmem ptr hptr)
  obtain ⟨right, htiled', hlive'⟩ := hinv.tiled.freeAll_live
    (hperm.nodup_iff.mp hnodup) fun ptr hptr =>
      (hinv.mem_live_iff ptr).mp (hmem ptr (hperm.mem_iff.mpr hptr))
  apply htiled.blocks_eq_of_live htiled'
  intro block
  rw [hlive, hlive', hperm.mem_iff]

theorem blocks_free_malloc {A : Arena} {s : State} (hs : Reachable A s)
    {size ptr : Nat} {m : Mem} (hfits : Fits size)
    (hmalloc : malloc A s.mem size = some (m, some ptr)) :
    blocks A (free A m (some ptr)) = blocks A s.mem := by
  obtain ⟨segs, hinv⟩ := hs.inv
  obtain ⟨segs', block, htiled, -, rfl, -, hfresh, hlive, -⟩ :=
    malloc_spec hinv.tiled hfits hmalloc
  obtain ⟨segs'', htiled', hlive', -⟩ := free_used_spec htiled
    ((hlive block).mpr (Or.inl rfl))
  apply htiled'.blocks_eq_of_live hinv.tiled
  intro old
  rw [hlive', hlive]
  constructor
  · rintro ⟨rfl | hold, hne⟩
    · exact absurd rfl hne
    · exact hold
  · intro hold
    refine ⟨Or.inr hold, ?_⟩
    rintro rfl
    obtain ⟨hplace, hused⟩ := mem_live.mp hold
    exact hfresh old hplace hused rfl

theorem blocks_freeAll_live {A : Arena} {s : State} (hs : Reachable A s)
    {ptrs : List Nat} (hperm : ptrs.Perm (s.live.map Alloc.ptr)) :
    blocks A (freeAll A s.mem ptrs) = [⟨0, kArenaSize, false⟩] := by
  obtain ⟨segs, hinv⟩ := hs.inv
  obtain ⟨segs', htiled, hlive⟩ := hinv.tiled.freeAll_live
    (hperm.nodup_iff.mpr hinv.nodup) fun ptr hptr =>
      (hinv.mem_live_iff ptr).mp (hperm.mem_iff.mp hptr)
  have hinit := init_tiled A s.mem
  have hsame := htiled.blocks_eq_of_live hinit (by
    intro block
    rw [hlive, live_cons_free, live_nil]
    simp only [List.not_mem_nil, iff_false, not_and, not_not]
    intro hblock
    rw [hperm.mem_iff, hinv.mem_live_iff]
    exact List.mem_map_of_mem hblock)
  rw [hsame, blocks_eq hinit]
  rfl

/-- The layout is a function of the live blocks, so freeing a set of live
pointers gives one layout in every order, a `free` undoes the `malloc` before
it, and freeing everything restores the single block of `heap::init()`. -/
theorem reachable_canonical (A : Arena) :
    (∀ s t, Reachable A s → Reachable A t →
      (∀ block, block ∈ liveBlocks A s.mem ↔ block ∈ liveBlocks A t.mem) →
        blocks A s.mem = blocks A t.mem) ∧
    (∀ s, Reachable A s → ∀ ptrs ptrs' : List Nat, ptrs.Nodup →
      ptrs.Perm ptrs' → (∀ ptr ∈ ptrs, ptr ∈ s.live.map Alloc.ptr) →
        blocks A (freeAll A s.mem ptrs) = blocks A (freeAll A s.mem ptrs')) ∧
    (∀ s, Reachable A s → ∀ size m ptr, Fits size →
      malloc A s.mem size = some (m, some ptr) →
        blocks A (free A m (some ptr)) = blocks A s.mem) ∧
    (∀ s, Reachable A s → ∀ ptrs : List Nat,
      ptrs.Perm (s.live.map Alloc.ptr) →
        blocks A (freeAll A s.mem ptrs) = [⟨0, kArenaSize, false⟩]) := by
  refine ⟨?_, ?_, ?_, ?_⟩
  · intro s t hs ht hlive
    exact blocks_eq_of_liveBlocks_eq hs ht hlive
  · intro s hs ptrs ptrs' hnodup hperm hmem
    exact blocks_freeAll_perm hs hnodup hperm hmem
  · intro s hs size m ptr hfits hmalloc
    exact blocks_free_malloc hs hfits hmalloc
  · intro s hs ptrs hperm
    exact blocks_freeAll_live hs hperm

/-- A client's write into one of two live blocks. -/
theorem sampleWrite_step :
    Step sampleArena ⟨sampleTwo, [⟨4208, 32⟩, ⟨4112, 64⟩]⟩ (.write 4112 7)
      ⟨Function.update sampleTwo 4112 7, [⟨4208, 32⟩, ⟨4112, 64⟩]⟩ := by
  obtain ⟨segs, hinv⟩ := sampleTwo_reachable.inv
  have hmem : (⟨4112, 64⟩ : Alloc) ∈
      [(⟨4208, 32⟩ : Alloc), ⟨4112, 64⟩] := by decide
  obtain ⟨block, hblock, hptr, hroom⟩ := hinv.exists_block hmem
  have hend := hinv.tiled.payloadEnd_ptrOf (mem_live.mp hblock).1
  rw [← hptr] at hend
  refine .write hmem (Nat.le_refl _) ?_
  unfold ptrOf at hptr
  simp only at hptr hroom hend ⊢
  omega

theorem sampleWrite_liveBlocks (block : Block) :
    block ∈ liveBlocks sampleArena sampleTwo ↔
      block ∈ liveBlocks sampleArena (Function.update sampleTwo 4112 7) := by
  obtain ⟨segs, hinv⟩ := sampleTwo_reachable.inv
  cases sampleWrite_step with
  | write hmem hlower hupper =>
      have hafter : Inv sampleArena ⟨Function.update sampleTwo 4112 7, _⟩ segs :=
        hinv.write hmem hlower hupper
      rw [liveBlocks_eq hinv.tiled, liveBlocks_eq hafter.tiled]

/-- Two live blocks: a write into one, a free of the last one allocated, and
frees of both in either order. -/
theorem reachable_canonical_sample :
    blocks sampleArena sampleTwo =
      blocks sampleArena (Function.update sampleTwo 4112 7) ∧
    blocks sampleArena (freeAll sampleArena sampleTwo [4112, 4208]) =
      blocks sampleArena (freeAll sampleArena sampleTwo [4208, 4112]) ∧
    blocks sampleArena (free sampleArena sampleTwo (some 4208)) =
      blocks sampleArena
        (carve sampleArena (init sampleArena fun _ => 0) 4096 96) ∧
    blocks sampleArena (freeAll sampleArena sampleTwo [4208, 4112]) =
      [⟨0, kArenaSize, false⟩] := by
  obtain ⟨hlayout, horder, hundo, hall⟩ := reachable_canonical sampleArena
  refine ⟨?_, ?_, ?_, ?_⟩
  · exact hlayout ⟨sampleTwo, [⟨4208, 32⟩, ⟨4112, 64⟩]⟩
      ⟨Function.update sampleTwo 4112 7, [⟨4208, 32⟩, ⟨4112, 64⟩]⟩
      sampleTwo_reachable (.step sampleTwo_reachable sampleWrite_step)
      sampleWrite_liveBlocks
  · exact horder ⟨sampleTwo, [⟨4208, 32⟩, ⟨4112, 64⟩]⟩ sampleTwo_reachable
      [4112, 4208] [4208, 4112] (by decide) (by decide) (by decide)
  · exact hundo ⟨carve sampleArena (init sampleArena fun _ => 0) 4096 96,
      [⟨4112, 64⟩]⟩ (sampleArena_reachable fun _ => 0) 32 sampleTwo 4208
      (by unfold Fits; omega) sampleTwo_malloc
  · exact hall ⟨sampleTwo, [⟨4208, 32⟩, ⟨4112, 64⟩]⟩ sampleTwo_reachable
      [4208, 4112] (by decide)

end Heap

end IntroOs
