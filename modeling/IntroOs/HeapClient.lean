/-
What the clients of the heap may rely on.  Live payloads are aligned, inside
the arena, disjoint from one another and from every tag, and no call of
`malloc` or `free` changes a byte of them.
-/
import IntroOs.HeapConsistent
import Mathlib.Data.List.Nodup

namespace IntroOs

namespace Heap

open ByteMem Tiling

/-- The byte ranges `[a, a + n)` and `[b, b + k)` have no address in common. -/
def Disjoint (a n b k : Nat) : Prop := a + n ≤ b ∨ b + k ≤ a

/-- What holds of the live allocations in one state.  No pointer is handed out
twice. -/
structure ClientView (A : Arena) (s : State) : Prop where
  live_nodup : (s.live.map Alloc.ptr).Nodup
  aligned : ∀ a ∈ s.live, a.ptr % 16 = 0
  inside : ∀ a ∈ s.live, arenaBegin A ≤ a.ptr ∧ a.ptr + a.size ≤ arenaEnd A
  within_payload : ∀ a ∈ s.live, a.ptr + a.size ≤ payloadEnd s.mem a.ptr
  apart : ∀ a ∈ s.live, ∀ b ∈ s.live, a ≠ b →
    Disjoint a.ptr a.size b.ptr b.size
  off_tags : ∀ a ∈ s.live, ∀ block ∈ blocks A s.mem,
    Disjoint a.ptr a.size (addrOf A block) kTagSize ∧
      Disjoint a.ptr a.size (footerOf s.mem (addrOf A block)) kTagSize

/-- A live payload lies strictly inside its own block. -/
theorem Inv.clientView {A : Arena} {s : State} {segs : List Seg}
    (h : Inv A s segs) : ClientView A s := by
  have htiled := h.tiled
  have haligned := A.aligned
  constructor
  · exact h.nodup
  · intro a ha
    obtain ⟨block, hblock, hptr, -⟩ := h.exists_block ha
    obtain ⟨-, -, hoffset, -⟩ := htiled.block_spec (mem_live.mp hblock).1
    unfold kAlignment at haligned
    unfold ptrOf at hptr
    omega
  · intro a ha
    obtain ⟨block, hblock, hptr, hroom⟩ := h.exists_block ha
    obtain ⟨hend, -⟩ := htiled.block_spec (mem_live.mp hblock).1
    unfold ptrOf at hptr
    unfold arenaBegin arenaEnd
    omega
  · intro a ha
    obtain ⟨block, hblock, hptr, hroom⟩ := h.exists_block ha
    rw [hptr, htiled.payloadEnd_ptrOf (mem_live.mp hblock).1]
    unfold ptrOf
    omega
  · intro a ha b hb hne
    obtain ⟨left, hleft, hptrLeft, hroomLeft⟩ := h.exists_block ha
    obtain ⟨right, hright, hptrRight, hroomRight⟩ := h.exists_block hb
    have hblocks : left ≠ right := by
      rintro rfl
      exact hne ((List.nodup_map_iff_inj_on h.nodup.of_map).mp h.nodup
        a ha b hb (hptrLeft.trans hptrRight.symm))
    have hsep := place_disjoint (mem_live.mp hleft).1 (mem_live.mp hright).1
      hblocks
    unfold ptrOf at hptrLeft hptrRight
    unfold Disjoint
    omega
  · rw [blocks_eq htiled]
    intro a ha block hblock
    obtain ⟨own, hown, hptr, hroom⟩ := h.exists_block ha
    have hownPlace := (mem_live.mp hown).1
    obtain ⟨-, hleast, -⟩ := htiled.block_spec hblock
    rw [addrOf, htiled.footerOf_block hblock]
    unfold ptrOf at hptr
    unfold Disjoint kTagSize
    by_cases hsame : block = own
    · subst hsame
      omega
    · have hsep := place_disjoint hblock hownPlace hsame
      omega

/-- `malloc` only changes bytes of a free block. -/
theorem Inv.malloc_frame {A : Arena} {s : State} {segs : List Seg}
    {size : Nat} {m : Mem} {result : Option Nat} (h : Inv A s segs)
    (hfits : Fits size) (hmalloc : Heap.malloc A s.mem size = some (m, result))
    {a : Alloc} (ha : a ∈ s.live) :
    EqOn m s.mem a.ptr (payloadEnd s.mem a.ptr) := by
  cases result with
  | none =>
      have hsame : m = s.mem := malloc_none h.tiled hmalloc
      intro x _ _
      rw [hsame]
  | some ptr =>
      obtain ⟨-, -, -, -, -, -, -, -, free, hfree, hunused, hout⟩ :=
        malloc_spec h.tiled hfits hmalloc
      obtain ⟨block, hblock, hptr, -⟩ := h.exists_block ha
      obtain ⟨hplace, hused⟩ := mem_live.mp hblock
      have hne : block ≠ free := by
        rintro rfl
        exact Bool.false_ne_true (hunused.symm.trans hused)
      have hsep := place_disjoint hplace hfree hne
      rw [hptr, h.tiled.payloadEnd_ptrOf hplace]
      intro x hlo hhi
      unfold ptrOf at hlo
      apply hout
      omega

/-- `free` only changes bytes of the freed block and of free blocks. -/
theorem Inv.free_frame {A : Arena} {s : State} {segs : List Seg}
    (h : Inv A s segs) {a b : Alloc} (ha : a ∈ s.live) (hb : b ∈ s.live)
    (hne : b.ptr ≠ a.ptr) :
    EqOn (Heap.free A s.mem (some a.ptr)) s.mem b.ptr
      (payloadEnd s.mem b.ptr) := by
  obtain ⟨block, hblock, hptr, -⟩ := h.exists_block ha
  obtain ⟨other, hother, hptrOther, -⟩ := h.exists_block hb
  obtain ⟨-, -, -, lo, hi, hout, hkeep⟩ := free_used_spec h.tiled hblock
  have hblocks : other ≠ block := by
    rintro rfl
    exact hne (hptrOther.trans hptr.symm)
  have hsep := hkeep other hother hblocks
  rw [hptr, hptrOther, h.tiled.payloadEnd_ptrOf (mem_live.mp hother).1]
  intro x hlo hhi
  unfold ptrOf at hlo
  apply hout
  omega

/-- A call of `malloc` or `free`, as opposed to a client's write. -/
def Op.IsCall : Op → Prop
  | .malloc _ => True
  | .free _ => True
  | .write _ _ => False

theorem Inv.call_frame {A : Arena} {s t : State} {op : Op} {segs : List Seg}
    (h : Inv A s segs) (hstep : Step A s op t) (hcall : op.IsCall)
    {a : Alloc} (ha : a ∈ s.live) (hkept : a ∈ t.live) :
    EqOn t.mem s.mem a.ptr (payloadEnd s.mem a.ptr) := by
  cases hstep with
  | malloc hfits hmalloc => exact h.malloc_frame hfits hmalloc ha
  | free hfreed =>
      have hne := (List.mem_filter.mp hkept).2
      simp only [ne_eq, decide_eq_true_eq] at hne
      exact h.free_frame hfreed ha hne
  | freeNull => exact fun x _ _ => rfl
  | write => exact hcall.elim

/-- The client contract: in every state of every run the live payloads are
well placed, and no later call changes a byte of one before it is freed. -/
theorem reachable_clientView (A : Arena) {s : State} (h : Reachable A s) :
    ClientView A s ∧
      ∀ op t, Step A s op t → op.IsCall → ∀ a ∈ s.live, a ∈ t.live →
        ∀ x, a.ptr ≤ x → x < payloadEnd s.mem a.ptr → t.mem x = s.mem x := by
  obtain ⟨segs, hinv⟩ := h.inv
  refine ⟨hinv.clientView, ?_⟩
  intro op t hstep hcall a ha hkept
  exact hinv.call_frame hstep hcall ha hkept

/-- Two allocations are live; a free of the first leaves the second alone. -/
theorem reachable_clientView_sample :
    ClientView sampleArena ⟨sampleTwo, [⟨4208, 32⟩, ⟨4112, 64⟩]⟩ ∧
      ∀ x, 4208 ≤ x → x < 4240 →
        Heap.free sampleArena sampleTwo (some 4112) x = sampleTwo x := by
  obtain ⟨hview, hframe⟩ :=
    reachable_clientView sampleArena sampleTwo_reachable
  have hpayload := hview.within_payload ⟨4208, 32⟩ List.mem_cons_self
  refine ⟨hview, fun x hlo hhi => ?_⟩
  exact hframe _ _ sampleHole_step trivial ⟨4208, 32⟩ List.mem_cons_self
    List.mem_cons_self x hlo (Nat.lt_of_lt_of_le hhi hpayload)

end Heap

end IntroOs
