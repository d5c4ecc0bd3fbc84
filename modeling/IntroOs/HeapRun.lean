/-
Runs of the heap.  A run interleaves `malloc`, `free` of live pointers and
client writes into live payloads, from `heap::init` on.  One step keeps the
arena tiled with the used segments equal to the live allocations, and hence
so does every run.
-/
import IntroOs.HeapOps

namespace IntroOs

namespace Heap

open ByteMem Tiling

/-- A live allocation as its client knows it: the pointer `malloc` returned
and the size it was asked for. -/
structure Alloc where
  ptr : Nat
  size : Nat
deriving DecidableEq, Repr

/-- The memory, and the allocations returned and not yet freed. -/
structure State where
  mem : Mem
  live : List Alloc

inductive Op where
  | malloc (size : Nat)
  | free (ptr : Option Nat)
  | write (x : Nat) (value : UInt8)

/-- The end of the payload of the block that `ptr` points into. -/
def payloadEnd (m : Mem) (ptr : Nat) : Nat := footerOf m (headerOf ptr)

/-- One operation of a run.  A client may write any byte of a live payload. -/
inductive Step (A : Arena) : State → Op → State → Prop
  | malloc {s : State} {size : Nat} {m : Mem} {result : Option Nat}
      (fits : Fits size) (returns : malloc A s.mem size = some (m, result)) :
      Step A s (.malloc size)
        ⟨m, result.elim s.live fun ptr => ⟨ptr, size⟩ :: s.live⟩
  | free {s : State} {a : Alloc} (mem_live : a ∈ s.live) :
      Step A s (.free (some a.ptr))
        ⟨free A s.mem (some a.ptr), s.live.filter fun b => b.ptr ≠ a.ptr⟩
  | freeNull {s : State} : Step A s (.free none) ⟨free A s.mem none, s.live⟩
  | write {s : State} {a : Alloc} {x : Nat} {value : UInt8}
      (mem_live : a ∈ s.live) (lower : a.ptr ≤ x)
      (upper : x < payloadEnd s.mem a.ptr) :
      Step A s (.write x value) ⟨Function.update s.mem x value, s.live⟩

/-- The states of a run from `heap::init()`, over any initial memory. -/
inductive Reachable (A : Arena) : State → Prop
  | init (m : Mem) : Reachable A ⟨init A m, []⟩
  | step {s t : State} {op : Op} (before : Reachable A s)
      (step : Step A s op t) : Reachable A t

/-- The pointer that `malloc` returns for a block. -/
def ptrOf (A : Arena) (block : Block) : Nat := A.base + block.offset + 16

/-- The arena is tiled by `segs`, and the used segments are the live
allocations, each with room for the size it was asked for. -/
structure Inv (A : Arena) (s : State) (segs : List Seg) : Prop where
  tiled : Tiled A s.mem segs
  mem_live_iff : ∀ ptr, ptr ∈ s.live.map Alloc.ptr ↔
    ptr ∈ (live 0 segs).map (ptrOf A)
  nodup : (s.live.map Alloc.ptr).Nodup
  room : ∀ a ∈ s.live, ∀ block ∈ live 0 segs, a.ptr = ptrOf A block →
    a.size + 32 ≤ block.size

namespace Inv

variable {A : Arena} {s : State} {segs : List Seg}

/-- The block behind a live allocation. -/
theorem exists_block (h : Inv A s segs) {a : Alloc} (ha : a ∈ s.live) :
    ∃ block ∈ live 0 segs, a.ptr = ptrOf A block ∧ a.size + 32 ≤ block.size := by
  have hmem := (h.mem_live_iff a.ptr).mp (List.mem_map_of_mem ha)
  obtain ⟨block, hblock, heq⟩ := List.mem_map.mp hmem
  exact ⟨block, hblock, heq.symm, h.room a ha block hblock heq.symm⟩

theorem block_eq_of_ptr_eq (h : Inv A s segs) {left right : Block}
    (hleft : left ∈ place 0 segs) (hright : right ∈ place 0 segs)
    (heq : ptrOf A left = ptrOf A right) : left = right := by
  apply eq_of_offset_eq h.tiled.seg_pos hleft hright
  unfold ptrOf at heq
  omega

end Inv

/-- The bounds and the tags of one block of a tiled arena. -/
theorem Tiled.block_spec {A : Arena} {m : Mem} {segs : List Seg}
    (h : Tiled A m segs) {block : Block} (hblock : block ∈ place 0 segs) :
    block.offset + block.size ≤ kArenaSize ∧ 32 ≤ block.size ∧
      16 ∣ block.offset ∧ 16 ∣ block.size ∧
      readTag m (A.base + block.offset) = tagOf ⟨block.size, block.used⟩ ∧
      readTag m (A.base + block.offset + block.size - 16) =
        tagOf ⟨block.size, block.used⟩ := by
  have hbound := (place_bounds hblock).2
  obtain ⟨pre, post, hsegs, hoffset⟩ := exists_split_of_mem_place hblock
  have htotal := h.valid.total_eq
  rw [htotal] at hbound
  rw [Nat.zero_add] at hoffset
  have hmem : (⟨block.size, block.used⟩ : Seg) ∈ segs := by simp [hsegs]
  have htags := h.tags
  rw [hsegs, tags_append] at htags
  have hdvd : 16 ∣ total pre := dvd_total fun s hs =>
    h.valid.unit_dvd s (by simp [hsegs, hs])
  rw [hoffset]
  refine ⟨?_, h.least _ hmem, hdvd, h.valid.unit_dvd _ hmem, htags.2.1,
    htags.2.2.1⟩
  omega

theorem Tiled.headerOf_ptrOf {A : Arena} {m : Mem} {segs : List Seg}
    (h : Tiled A m segs) {block : Block} (hblock : block ∈ place 0 segs) :
    headerOf (ptrOf A block) = A.base + block.offset := by
  obtain ⟨hend, hleast, -⟩ := h.block_spec hblock
  have hfits := A.fits
  unfold headerOf ptrOf kTagSize
  rw [sub64_eq (by omega) (by omega), Nat.add_sub_cancel]

theorem Tiled.footerOf_block {A : Arena} {m : Mem} {segs : List Seg}
    (h : Tiled A m segs) {block : Block} (hblock : block ∈ place 0 segs) :
    footerOf m (A.base + block.offset) =
      A.base + block.offset + block.size - 16 := by
  obtain ⟨hend, hleast, -, -, hheader, -⟩ := h.block_spec hblock
  have hfits := A.fits
  unfold footerOf kTagSize
  simp only [hheader, tagOf]
  rw [add64_eq (by omega), sub64_eq (by omega) (by omega)]

theorem Tiled.payloadEnd_ptrOf {A : Arena} {m : Mem} {segs : List Seg}
    (h : Tiled A m segs) {block : Block} (hblock : block ∈ place 0 segs) :
    payloadEnd m (ptrOf A block) =
      A.base + block.offset + block.size - 16 := by
  rw [payloadEnd, h.headerOf_ptrOf hblock, h.footerOf_block hblock]

/-- A `malloc` that returns null changes nothing. -/
theorem malloc_none {A : Arena} {m m' : Mem} {segs : List Seg} {size : Nat}
    (h : Tiled A m segs) (hmalloc : malloc A m size = some (m', none)) :
    m' = m := by
  by_cases hsize : size = 0
  · subst hsize
    simpa [malloc] using hmalloc.symm
  · rw [malloc_eq h hsize] at hmalloc
    cases hfirst : firstFit (neededFor size) segs with
    | none => simpa [hfirst] using hmalloc.symm
    | some offset => simp [hfirst] at hmalloc

/-- What a successful `malloc` does: one free segment becomes used, alone or
in front of a free remainder, and only its bytes change. -/
theorem malloc_spec {A : Arena} {m m' : Mem} {segs : List Seg} {size ptr : Nat}
    (h : Tiled A m segs) (hfits : Fits size)
    (hmalloc : malloc A m size = some (m', some ptr)) :
    ∃ segs' block, Tiled A m' segs' ∧ block ∈ place 0 segs' ∧
      ptr = ptrOf A block ∧ size + 32 ≤ block.size ∧
      (∀ old ∈ place 0 segs, old.used = true → old.offset ≠ block.offset) ∧
      (∀ old, old ∈ live 0 segs' ↔ old = block ∨ old ∈ live 0 segs) ∧
      ∃ free ∈ place 0 segs, free.used = false ∧
        EqOutside m' m (A.base + free.offset)
          (A.base + free.offset + free.size) := by
  have hsize : size ≠ 0 := by
    rintro rfl
    simp [malloc] at hmalloc
  rw [malloc_eq h hsize] at hmalloc
  have hneeded := neededFor_eq hfits
  cases hfirst : firstFit (neededFor size) segs with
  | none => simp [hfirst] at hmalloc
  | some offset =>
      obtain ⟨pre, n, post, rfl, rfl, hfit, -⟩ := firstFit_eq_some hfirst
      simp only [hfirst, Option.some.injEq, Prod.mk.injEq] at hmalloc
      obtain ⟨rfl, rfl⟩ := hmalloc
      have hfree : (⟨total pre, n, false⟩ : Block) ∈
          place 0 (pre ++ ⟨n, false⟩ :: post) := by
        simpa using mem_place_of_split 0 pre post ⟨n, false⟩
      have hspec := h.block_spec hfree
      have harena := A.fits
      have hptr : payloadOf (A.base + total pre) = A.base + total pre + 16 :=
        add64_eq (by unfold kTagSize; simp only at hspec; omega)
      have hfresh : ∀ old ∈ place 0 (pre ++ ⟨n, false⟩ :: post),
          old.used = true → old.offset ≠ total pre := by
        intro old hold hused heq
        have := eq_of_offset_eq h.seg_pos hold hfree heq
        rw [this] at hused
        exact Bool.false_ne_true hused
      have hlist : pre ++ ⟨n, false⟩ :: post = pre ++ [⟨n, false⟩] ++ post := by
        simp
      obtain ⟨new, htiled, hout, hnew⟩ := carve_spec (hlist ▸ h) hfit
        (by rw [hneeded]; omega) (by rw [hneeded]; omega)
      have hliveNew : ∃ k, size + 32 ≤ k ∧
          (⟨total pre, k, true⟩ : Block) ∈ place 0 (pre ++ new ++ post) ∧
          live (total pre) new = [⟨total pre, k, true⟩] ∧ total new = n := by
        rcases hnew with ⟨hsplit, rfl⟩ | ⟨hwhole, rfl⟩
        · refine ⟨neededFor size, by rw [hneeded]; omega, by simp [place], ?_,
            by simp only [total]; omega⟩
          rw [live_cons_used, live_cons_free, live_nil]
        · refine ⟨n, by omega, by simp [place], ?_, rfl⟩
          rw [live_cons_used, live_nil]
      obtain ⟨k, hroom, hmem, hlive, htotal⟩ := hliveNew
      refine ⟨_, ⟨total pre, k, true⟩, htiled, hmem, hptr, hroom, hfresh, ?_,
        _, hfree, rfl, hout⟩
      intro old
      simp only [live_append, Nat.zero_add, hlive, live_cons_free, total_append,
        htotal, List.mem_append, List.mem_singleton]
      tauto

/-- What `free` of a used block does: the block leaves the used ones, and only
bytes of it and of free blocks change. -/
theorem free_used_spec {A : Arena} {m : Mem} {segs : List Seg} {block : Block}
    (h : Tiled A m segs) (hblock : block ∈ live 0 segs) :
    ∃ segs', Tiled A (free A m (some (ptrOf A block))) segs' ∧
      (∀ old, old ∈ live 0 segs' ↔ old ∈ live 0 segs ∧ old ≠ block) ∧
      ∃ lo hi, EqOutside (free A m (some (ptrOf A block))) m
          (A.base + lo) (A.base + hi) ∧
        ∀ old ∈ live 0 segs, old ≠ block →
          old.offset + old.size ≤ lo ∨ hi ≤ old.offset := by
  obtain ⟨hplace, hused⟩ := mem_live.mp hblock
  obtain ⟨pre, post, rfl, hoffset⟩ := exists_split_of_mem_place hplace
  rw [Nat.zero_add] at hoffset
  rw [hused] at h hblock ⊢
  obtain ⟨pre', mid, post', hsegs, hmid, htiled, hout⟩ := free_spec h
  have hptr : ptrOf A block = A.base + total pre + 16 := by
    rw [ptrOf, hoffset]
  have hblockEq : block = ⟨total pre, block.size, true⟩ := by
    rw [← hoffset, ← hused]
  have hlive : live 0 (pre ++ ⟨block.size, true⟩ :: post) =
      live 0 pre' ++ [block] ++ live (total pre' + total mid) post' := by
    rw [hsegs, live_append, live_append, Nat.zero_add, total_append,
      Nat.zero_add, hmid, ← hblockEq]
  have hlive' : live 0 (pre' ++ [⟨total mid, false⟩] ++ post') =
      live 0 pre' ++ live (total pre' + total mid) post' := by
    simp [live_cons_free]
  have hbefore : ∀ old ∈ live 0 pre', old.offset + old.size ≤ total pre' := by
    intro old hold
    simpa using (place_bounds (mem_live.mp hold).1).2
  have hafter : ∀ old ∈ live (total pre' + total mid) post',
      total pre' + total mid ≤ old.offset := by
    intro old hold
    exact (place_bounds (mem_live.mp hold).1).1
  have hbounds : total pre' ≤ block.offset ∧
      block.offset + block.size ≤ total pre' + total mid := by
    have hmem : block ∈ place (total pre') mid := by
      apply (mem_live.mp (_ : block ∈ live (total pre') mid)).1
      rw [hmid, ← hblockEq]
      exact List.mem_singleton_self block
    exact place_bounds hmem
  have hpos : 0 < block.size := h.seg_pos ⟨block.size, true⟩ (by simp)
  rw [hptr]
  refine ⟨_, htiled, ?_, total pre', total pre' + total mid, ?_, ?_⟩
  · intro old
    rw [hlive, hlive']
    simp only [List.mem_append, List.mem_singleton]
    constructor
    · rintro (hold | hold)
      · refine ⟨Or.inl (Or.inl hold), ?_⟩
        rintro rfl
        have := hbefore old hold
        omega
      · refine ⟨Or.inr hold, ?_⟩
        rintro rfl
        have := hafter old hold
        omega
    · rintro ⟨(hold | hold) | hold, hne⟩
      · exact Or.inl hold
      · exact absurd hold hne
      · exact Or.inr hold
  · rw [← Nat.add_assoc]
    exact hout
  · intro old hold hne
    rw [hlive] at hold
    simp only [List.mem_append, List.mem_singleton] at hold
    rcases hold with (hold | hold) | hold
    · exact Or.inl (hbefore old hold)
    · exact absurd hold hne
    · exact Or.inr (hafter old hold)

theorem init_inv (A : Arena) (m : Mem) :
    Inv A ⟨init A m, []⟩ [⟨kArenaSize, false⟩] := by
  refine ⟨init_tiled A m, ?_, List.nodup_nil, by simp⟩
  intro ptr
  simp [live_cons_free]

theorem Inv.malloc {A : Arena} {s : State} {segs : List Seg} {size : Nat}
    {m : Mem} {result : Option Nat} (h : Inv A s segs) (hfits : Fits size)
    (hmalloc : Heap.malloc A s.mem size = some (m, result)) :
    ∃ segs', Inv A
      ⟨m, result.elim s.live fun ptr => ⟨ptr, size⟩ :: s.live⟩ segs' := by
  cases result with
  | none =>
      obtain rfl := malloc_none h.tiled hmalloc
      exact ⟨segs, h⟩
  | some ptr =>
      obtain ⟨segs', block, htiled, hplace, rfl, hroom, hfresh, hlive, -⟩ :=
        malloc_spec h.tiled hfits hmalloc
      have hnew : ptrOf A block ∉ s.live.map Alloc.ptr := by
        rw [h.mem_live_iff, List.mem_map]
        rintro ⟨old, hold, heq⟩
        obtain ⟨hplaceOld, hused⟩ := mem_live.mp hold
        apply hfresh old hplaceOld hused
        unfold ptrOf at heq
        omega
      refine ⟨segs', htiled, ?_, ?_, ?_⟩
      · intro ptr
        simp only [Option.elim_some, List.map_cons, List.mem_cons,
          h.mem_live_iff, List.mem_map, hlive]
        constructor
        · rintro (rfl | ⟨old, hold, rfl⟩)
          · exact ⟨block, Or.inl rfl, rfl⟩
          · exact ⟨old, Or.inr hold, rfl⟩
        · rintro ⟨old, rfl | hold, rfl⟩
          · exact Or.inl rfl
          · exact Or.inr ⟨old, hold, rfl⟩
      · exact List.nodup_cons.mpr ⟨hnew, h.nodup⟩
      · intro a ha old hold heq
        simp only [Option.elim_some, List.mem_cons] at ha
        rcases ha with rfl | ha
        · rw [eq_of_offset_eq htiled.seg_pos (mem_live.mp hold).1 hplace
            (by simp only [ptrOf] at heq; omega)]
          exact hroom
        · rcases (hlive old).mp hold with rfl | hold
          · exact absurd (List.mem_map_of_mem ha) (heq ▸ hnew)
          · exact h.room a ha old hold heq

theorem Inv.free {A : Arena} {s : State} {segs : List Seg} {a : Alloc}
    (h : Inv A s segs) (ha : a ∈ s.live) :
    ∃ segs', Inv A ⟨Heap.free A s.mem (some a.ptr),
      s.live.filter fun b => b.ptr ≠ a.ptr⟩ segs' := by
  obtain ⟨block, hblock, hptr, -⟩ := h.exists_block ha
  obtain ⟨segs', htiled, hlive, -⟩ := free_used_spec h.tiled hblock
  rw [← hptr] at htiled
  refine ⟨segs', htiled, ?_, ?_, ?_⟩
  · intro ptr
    have hiff := h.mem_live_iff ptr
    simp only [List.mem_map, List.mem_filter, ne_eq, decide_eq_true_eq,
      hlive] at hiff ⊢
    constructor
    · rintro ⟨b, ⟨hb, hne⟩, rfl⟩
      obtain ⟨old, hold, heq⟩ := hiff.mp ⟨b, hb, rfl⟩
      refine ⟨old, ⟨hold, ?_⟩, heq⟩
      rintro rfl
      exact hne (heq.symm.trans hptr.symm)
    · rintro ⟨old, ⟨hold, hne⟩, rfl⟩
      obtain ⟨b, hb, heq⟩ := hiff.mpr ⟨old, hold, rfl⟩
      refine ⟨b, ⟨hb, ?_⟩, heq⟩
      intro hsame
      apply hne
      exact h.block_eq_of_ptr_eq (mem_live.mp hold).1 (mem_live.mp hblock).1
        (heq.symm.trans (hsame.trans hptr))
  · exact h.nodup.sublist (List.filter_sublist.map _)
  · intro b hb old hold heq
    exact h.room b (List.mem_filter.mp hb).1 old ((hlive old).mp hold).1 heq

/-- A write inside a live payload misses every tag. -/
theorem Inv.write {A : Arena} {s : State} {segs : List Seg} {a : Alloc}
    {x : Nat} {value : UInt8} (h : Inv A s segs) (ha : a ∈ s.live)
    (hlower : a.ptr ≤ x) (hupper : x < payloadEnd s.mem a.ptr) :
    Inv A ⟨Function.update s.mem x value, s.live⟩ segs := by
  refine ⟨⟨h.tiled.valid, ?_⟩, h.mem_live_iff, h.nodup, h.room⟩
  obtain ⟨block, hblock, hptr, -⟩ := h.exists_block ha
  have hplace := (mem_live.mp hblock).1
  rw [hptr, h.tiled.payloadEnd_ptrOf hplace] at hupper
  rw [hptr, ptrOf] at hlower
  obtain ⟨-, -, -, -, hheader, hfooter⟩ := h.tiled.block_spec hplace
  obtain ⟨pre, post, rfl, hoffset⟩ := exists_split_of_mem_place hplace
  rw [Nat.zero_add] at hoffset
  have hsize := h.tiled.least ⟨block.size, block.used⟩ (by simp)
  simp only at hsize
  have hupdate : EqOutside (Function.update s.mem x value) s.mem x (x + 1) := by
    intro y hy
    exact Function.update_of_ne (by omega) _ _
  have htags := h.tiled.tags
  rw [List.append_cons] at htags ⊢
  apply htags.replace (fun s hs => h.tiled.least s (by simp [hs]))
    (fun s hs => h.tiled.least s (by simp [hs])) rfl
  · rw [← hoffset]
    exact hupdate.mono (by omega) (by simp only [total]; omega)
  · rw [← hoffset]
    refine ⟨?_, ?_, trivial⟩
    · rw [readTag_eq_of_eqOutside hupdate (Or.inl (by omega)), hheader]
    · rw [readTag_eq_of_eqOutside hupdate (Or.inr (by simp only; omega)), hfooter]

theorem Step.inv {A : Arena} {s t : State} {op : Op} {segs : List Seg}
    (hstep : Step A s op t) (h : Inv A s segs) : ∃ segs', Inv A t segs' := by
  cases hstep with
  | malloc hfits hmalloc => exact h.malloc hfits hmalloc
  | free ha => exact h.free ha
  | freeNull => exact ⟨segs, h⟩
  | write ha hlower hupper => exact ⟨segs, h.write ha hlower hupper⟩

theorem Reachable.inv {A : Arena} {s : State} (h : Reachable A s) :
    ∃ segs, Inv A s segs := by
  induction h with
  | init m => exact ⟨_, init_inv A m⟩
  | step _ hstep ih =>
      obtain ⟨segs, hinv⟩ := ih
      exact hstep.inv hinv

end Heap

end IntroOs
