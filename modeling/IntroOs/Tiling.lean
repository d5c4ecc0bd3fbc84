/-
Tilings of an interval by used and free segments.  A tiling is kept maximally
coalesced: no two neighbouring segments are both free.  Such a tiling is
determined by its used segments alone.
-/
import Mathlib.Data.List.Chain
import Mathlib.Tactic.Common

namespace Tiling

/-- One segment: its length and whether it is handed out. -/
structure Seg where
  size : Nat
  used : Bool
deriving DecidableEq, Repr

/-- A segment together with the offset at which it starts. -/
structure Block where
  offset : Nat
  size : Nat
  used : Bool
deriving DecidableEq, Repr

def total : List Seg → Nat
  | [] => 0
  | seg :: rest => seg.size + total rest

/-- Lay the segments out from offset `start`, one after the other. -/
def place (start : Nat) : List Seg → List Block
  | [] => []
  | seg :: rest => ⟨start, seg.size, seg.used⟩ :: place (start + seg.size) rest

/-- The used blocks of a tiling that starts at offset `start`. -/
def live (start : Nat) (segs : List Seg) : List Block :=
  (place start segs).filter Block.used

/-- The offset of the first free segment of at least `needed`. -/
def firstFit (needed : Nat) : List Seg → Option Nat
  | [] => none
  | seg :: rest =>
      if seg.used = true ∨ seg.size < needed then
        (firstFit needed rest).map (seg.size + ·)
      else some 0

/-- Neighbours that may stand side by side in a coalesced tiling. -/
def Apart (left right : Seg) : Prop := left.used = true ∨ right.used = true

/-- The well-formed tilings of an interval of length `size`: every segment is
a positive multiple of `unit` of at least `least`, and free segments are
maximal. -/
structure Valid (unit least size : Nat) (segs : List Seg) : Prop where
  least_le : ∀ seg ∈ segs, least ≤ seg.size
  unit_dvd : ∀ seg ∈ segs, unit ∣ seg.size
  total_eq : total segs = size
  apart : segs.IsChain Apart

@[simp] theorem total_append (left right : List Seg) :
    total (left ++ right) = total left + total right := by
  induction left with
  | nil => simp [total]
  | cons seg rest ih => simp [total, ih, Nat.add_assoc]

theorem mul_length_le_total {least : Nat} {segs : List Seg}
    (h : ∀ seg ∈ segs, least ≤ seg.size) :
    least * segs.length ≤ total segs := by
  induction segs with
  | nil => simp [total]
  | cons seg rest ih =>
      have hseg := h seg List.mem_cons_self
      have hrest := ih fun s hs => h s (List.mem_cons_of_mem seg hs)
      simp only [List.length_cons, total, Nat.mul_add, Nat.mul_one]
      omega

theorem dvd_total {unit : Nat} {segs : List Seg}
    (h : ∀ seg ∈ segs, unit ∣ seg.size) : unit ∣ total segs := by
  induction segs with
  | nil => exact Nat.dvd_zero unit
  | cons seg rest ih =>
      exact Nat.dvd_add (h seg List.mem_cons_self)
        (ih fun s hs => h s (List.mem_cons_of_mem seg hs))

@[simp] theorem place_append (start : Nat) (left right : List Seg) :
    place start (left ++ right) =
      place start left ++ place (start + total left) right := by
  induction left generalizing start with
  | nil => simp [place, total]
  | cons seg rest ih => simp [place, total, ih, Nat.add_assoc]

/-- A tiling that starts elsewhere has the same blocks, shifted. -/
theorem place_add (a start : Nat) (segs : List Seg) :
    place (a + start) segs = (place start segs).map fun block =>
      ⟨a + block.offset, block.size, block.used⟩ := by
  induction segs generalizing start with
  | nil => rfl
  | cons seg rest ih => simp [place, ← ih, Nat.add_assoc]

@[simp] theorem live_append (start : Nat) (left right : List Seg) :
    live start (left ++ right) =
      live start left ++ live (start + total left) right := by
  simp [live]

@[simp] theorem live_nil (start : Nat) : live start [] = [] := rfl

theorem live_cons_used (start n : Nat) (rest : List Seg) :
    live start (⟨n, true⟩ :: rest) =
      ⟨start, n, true⟩ :: live (start + n) rest := by
  simp [live, place]

theorem live_cons_free (start n : Nat) (rest : List Seg) :
    live start (⟨n, false⟩ :: rest) = live (start + n) rest := by
  simp [live, place]

theorem mem_live {start : Nat} {segs : List Seg} {block : Block} :
    block ∈ live start segs ↔
      block ∈ place start segs ∧ block.used = true := by
  simp [live]

theorem place_bounds {start : Nat} {segs : List Seg} {block : Block}
    (hblock : block ∈ place start segs) :
    start ≤ block.offset ∧ block.offset + block.size ≤ start + total segs := by
  induction segs generalizing start with
  | nil => simp [place] at hblock
  | cons seg rest ih =>
      simp only [place, List.mem_cons] at hblock
      rcases hblock with rfl | hrest
      · simp [total]
      · have hbound := ih hrest
        simp only [total]
        omega

/-- Every block of a tiling sits between a prefix and a suffix of segments. -/
theorem exists_split_of_mem_place {start : Nat} {segs : List Seg}
    {block : Block} (hblock : block ∈ place start segs) :
    ∃ pre post, segs = pre ++ ⟨block.size, block.used⟩ :: post ∧
      block.offset = start + total pre := by
  induction segs generalizing start with
  | nil => simp [place] at hblock
  | cons seg rest ih =>
      simp only [place, List.mem_cons] at hblock
      rcases hblock with rfl | hrest
      · exact ⟨[], rest, rfl, rfl⟩
      · obtain ⟨pre, post, hsegs, hoffset⟩ := ih hrest
        refine ⟨seg :: pre, post, by rw [hsegs]; rfl, ?_⟩
        simp only [total]
        omega

theorem mem_place_of_split (start : Nat) (pre post : List Seg) (seg : Seg) :
    ⟨start + total pre, seg.size, seg.used⟩ ∈
      place start (pre ++ seg :: post) := by
  simp [place]

/-- Distinct blocks of one tiling occupy disjoint ranges. -/
theorem place_disjoint {start : Nat} {segs : List Seg} {left right : Block}
    (hleft : left ∈ place start segs) (hright : right ∈ place start segs)
    (hne : left ≠ right) :
    left.offset + left.size ≤ right.offset ∨
      right.offset + right.size ≤ left.offset := by
  induction segs generalizing start with
  | nil => simp [place] at hleft
  | cons seg rest ih =>
      simp only [place, List.mem_cons] at hleft hright
      rcases hleft with rfl | hleft <;> rcases hright with rfl | hright
      · exact absurd rfl hne
      · exact Or.inl (place_bounds hright).1
      · exact Or.inr (place_bounds hleft).1
      · exact ih hleft hright

theorem eq_of_offset_eq {start : Nat} {segs : List Seg}
    (hpos : ∀ seg ∈ segs, 0 < seg.size) {left right : Block}
    (hleft : left ∈ place start segs) (hright : right ∈ place start segs)
    (hoffset : left.offset = right.offset) : left = right := by
  by_contra hne
  obtain ⟨pre, post, hsegs, -⟩ := exists_split_of_mem_place hleft
  obtain ⟨pre', post', hsegs', -⟩ := exists_split_of_mem_place hright
  have hl := hpos ⟨left.size, left.used⟩ (by simp [hsegs])
  have hr := hpos ⟨right.size, right.used⟩ (by simp [hsegs'])
  have hsep := place_disjoint hleft hright hne
  simp only at hl hr
  omega

theorem firstFit_eq_none {needed : Nat} {segs : List Seg} :
    firstFit needed segs = none ↔
      ∀ seg ∈ segs, seg.used = true ∨ seg.size < needed := by
  induction segs with
  | nil => simp [firstFit]
  | cons seg rest ih =>
      by_cases hskip : seg.used = true ∨ seg.size < needed
      · simp only [firstFit, hskip, ↓reduceIte, Option.map_eq_none_iff, ih,
          List.mem_cons, forall_eq_or_imp, true_and]
      · simp [firstFit, hskip]

theorem firstFit_eq_some {needed offset : Nat} {segs : List Seg}
    (h : firstFit needed segs = some offset) :
    ∃ pre n post, segs = pre ++ ⟨n, false⟩ :: post ∧ offset = total pre ∧
      needed ≤ n ∧ ∀ seg ∈ pre, seg.used = true ∨ seg.size < needed := by
  induction segs generalizing offset with
  | nil => simp [firstFit] at h
  | cons seg rest ih =>
      by_cases hskip : seg.used = true ∨ seg.size < needed
      · simp only [firstFit, hskip, ↓reduceIte, Option.map_eq_some_iff] at h
        obtain ⟨tail, htail, rfl⟩ := h
        obtain ⟨pre, n, post, rfl, rfl, hfit, hpre⟩ := ih htail
        refine ⟨seg :: pre, n, post, rfl, rfl, hfit, ?_⟩
        simp only [List.mem_cons, forall_eq_or_imp]
        exact ⟨hskip, hpre⟩
      · simp only [firstFit, hskip, ↓reduceIte, Option.some.injEq] at h
        rw [not_or, Bool.not_eq_true, Nat.not_lt] at hskip
        refine ⟨[], seg.size, rest, ?_, h.symm, hskip.2, by simp⟩
        rw [← hskip.1]
        rfl

namespace Valid

variable {unit least size : Nat} {segs pre mid post : List Seg} {n : Nat}

theorem seg_pos (hvalid : Valid unit least size segs) (hleast : 0 < least) :
    ∀ seg ∈ segs, 0 < seg.size := by
  intro seg hseg
  exact Nat.lt_of_lt_of_le hleast (hvalid.least_le seg hseg)

/-- Replace a run of segments by another run of the same total length. -/
theorem replace (hvalid : Valid unit least size (pre ++ mid ++ post))
    {new : List Seg} (hleast : ∀ seg ∈ new, least ≤ seg.size)
    (hunit : ∀ seg ∈ new, unit ∣ seg.size) (htotal : total new = total mid)
    (happart : (pre ++ new ++ post).IsChain Apart) :
    Valid unit least size (pre ++ new ++ post) := by
  refine ⟨?_, ?_, ?_, happart⟩
  · intro seg hseg
    simp only [List.mem_append] at hseg
    rcases hseg with (hpre | hnew) | hpost
    · exact hvalid.least_le seg (by simp [hpre])
    · exact hleast seg hnew
    · exact hvalid.least_le seg (by simp [hpost])
  · intro seg hseg
    simp only [List.mem_append] at hseg
    rcases hseg with (hpre | hnew) | hpost
    · exact hvalid.unit_dvd seg (by simp [hpre])
    · exact hunit seg hnew
    · exact hvalid.unit_dvd seg (by simp [hpost])
  · have heq := hvalid.total_eq
    simp only [total_append] at heq ⊢
    omega

end Valid

/-- A used segment may stand between any two coalesced runs. -/
theorem isChain_used_between {pre post : List Seg} {n : Nat}
    (hpre : pre.IsChain Apart) (hpost : post.IsChain Apart) :
    (pre ++ ⟨n, true⟩ :: post).IsChain Apart := by
  rw [List.isChain_append]
  refine ⟨hpre, ?_, ?_⟩
  · rw [List.isChain_cons_iff]
    cases post with
    | nil => exact Or.inl rfl
    | cons head tail =>
        exact Or.inr ⟨head, tail, Or.inl rfl, hpost, rfl⟩
  · intro x _ y hy
    simp only [List.head?_cons, Option.mem_def, Option.some.injEq] at hy
    exact Or.inr (by rw [← hy])

/-- A free segment may stand between two coalesced runs whose facing ends are
used. -/
theorem isChain_free_between {pre post : List Seg} {n : Nat}
    (hpre : pre.IsChain Apart) (hpost : post.IsChain Apart)
    (hleft : ∀ seg ∈ pre.getLast?, seg.used = true)
    (hright : ∀ seg ∈ post.head?, seg.used = true) :
    (pre ++ ⟨n, false⟩ :: post).IsChain Apart := by
  rw [List.isChain_append]
  refine ⟨hpre, ?_, ?_⟩
  · cases post with
    | nil => exact List.isChain_singleton _
    | cons head tail =>
        exact List.isChain_cons_cons.mpr
          ⟨Or.inr (hright head (by simp)), hpost⟩
  · intro x hx y _
    exact Or.inl (hleft x hx)

/-- The ends that face a free segment of a coalesced tiling are used. -/
theorem used_of_isChain_free {pre post : List Seg} {n : Nat}
    (h : (pre ++ ⟨n, false⟩ :: post).IsChain Apart) :
    (∀ seg ∈ pre.getLast?, seg.used = true) ∧
      ∀ seg ∈ post.head?, seg.used = true := by
  rw [List.isChain_append] at h
  obtain ⟨-, hcons, hseam⟩ := h
  constructor
  · intro seg hseg
    rcases hseam seg hseg ⟨n, false⟩ (by simp) with hused | hfree
    · exact hused
    · exact absurd hfree Bool.false_ne_true
  · intro seg hseg
    cases post with
    | nil => simp at hseg
    | cons head tail =>
        simp only [List.head?_cons, Option.mem_def, Option.some.injEq] at hseg
        rw [List.isChain_cons_cons] at hcons
        rcases hcons.1 with hfree | hused
        · exact absurd hfree Bool.false_ne_true
        · rw [← hseg]
          exact hused

/-- With the live blocks of a coalesced tiling below `lo`, all that is above
is in its last segment. -/
theorem exists_last_free {segs : List Seg} {lo : Nat}
    (hapart : segs.IsChain Apart)
    (hlive : ∀ block ∈ live 0 segs, block.offset + block.size ≤ lo)
    (hlo : lo < total segs) :
    ∃ pre n, segs = pre ++ [⟨n, false⟩] ∧ total pre ≤ lo := by
  have hend : ∀ pre n post, segs = pre ++ ⟨n, true⟩ :: post →
      total pre + n ≤ lo := by
    rintro pre n post rfl
    have hplace := mem_place_of_split 0 pre post ⟨n, true⟩
    rw [Nat.zero_add] at hplace
    exact hlive _ (mem_live.mpr ⟨hplace, rfl⟩)
  rcases List.eq_nil_or_concat segs with rfl | ⟨pre, ⟨n, used⟩, rfl⟩
  · exact absurd hlo (Nat.not_lt_zero lo)
  · rw [List.concat_eq_append] at hapart hlo hend ⊢
    cases used with
    | true =>
        have hle := hend pre n [] rfl
        simp only [total_append, total] at hlo
        omega
    | false =>
        refine ⟨pre, n, rfl, ?_⟩
        rcases List.eq_nil_or_concat pre with rfl | ⟨rest, seg, rfl⟩
        · exact Nat.zero_le lo
        · rw [List.concat_eq_append] at hapart hend ⊢
          have hused := (used_of_isChain_free hapart).1 seg (by simp)
          have hle := hend rest seg.size [⟨n, false⟩] (by
            rw [← hused, List.append_assoc]
            rfl)
          simpa [total] using hle

/-- First fit goes no further than a segment that fits. -/
theorem firstFit_le {needed n : Nat} (pre : List Seg) (hfit : needed ≤ n) :
    ∃ offset ≤ total pre,
      firstFit needed (pre ++ [⟨n, false⟩]) = some offset := by
  induction pre with
  | nil => exact ⟨0, Nat.le_refl 0, by simp [firstFit, Nat.not_lt.mpr hfit]⟩
  | cons seg rest ih =>
      obtain ⟨offset, hle, hfirst⟩ := ih
      rw [List.cons_append, firstFit]
      split
      · exact ⟨seg.size + offset, Nat.add_le_add_left hle _, by rw [hfirst]; rfl⟩
      · exact ⟨0, Nat.zero_le _, rfl⟩

/-- The byte at `x` belongs to one of the blocks. -/
def Taken (blocks : List Block) (x : Nat) : Prop :=
  ∃ block ∈ blocks, block.offset ≤ x ∧ x < block.offset + block.size

/-- `[lo, hi)` is a maximal run of bytes below `size` that belong to none of
the blocks. -/
structure FreeRun (blocks : List Block) (size lo hi : Nat) : Prop where
  lt : lo < hi
  inside : hi ≤ size
  isFree : ∀ x, lo ≤ x → x < hi → ¬ Taken blocks x
  left : lo = 0 ∨ Taken blocks (lo - 1)
  right : hi = size ∨ Taken blocks hi

/-- Every byte belongs to some segment. -/
theorem exists_block_at {start : Nat} {segs : List Seg} {x : Nat}
    (hlo : start ≤ x) (hhi : x < start + total segs) :
    Taken (place start segs) x := by
  induction segs generalizing start with
  | nil =>
      simp only [total] at hhi
      omega
  | cons seg rest ih =>
      by_cases hseg : x < start + seg.size
      · exact ⟨_, List.mem_cons_self, hlo, hseg⟩
      · simp only [total] at hhi
        have hrest : Taken (place (start + seg.size) rest) x :=
          ih (by omega) (by omega)
        obtain ⟨block, hblock, hbounds⟩ := hrest
        exact ⟨block, List.mem_cons_of_mem _ hblock, hbounds⟩

theorem taken_left {pre : List Seg} (hpos : ∀ seg ∈ pre, 0 < seg.size)
    (hlast : ∀ seg ∈ pre.getLast?, seg.used = true) (rest : List Seg) :
    total pre = 0 ∨ Taken (live 0 (pre ++ rest)) (total pre - 1) := by
  rcases List.eq_nil_or_concat' pre with rfl | ⟨init, last, rfl⟩
  · exact .inl rfl
  · have hused := hlast last (by simp)
    have hsize := hpos last (by simp)
    refine .inr ⟨⟨total init, last.size, last.used⟩, mem_live.mpr ⟨?_, hused⟩,
      ?_, ?_⟩
    · simp [place]
    · simp only [total_append, total]
      omega
    · simp only [total_append, total]
      omega

theorem taken_right (pre : List Seg) {post : List Seg}
    (hpos : ∀ seg ∈ post, 0 < seg.size)
    (hhead : ∀ seg ∈ post.head?, seg.used = true) :
    total pre = total (pre ++ post) ∨
      Taken (live 0 (pre ++ post)) (total pre) := by
  cases post with
  | nil => exact .inl (by simp)
  | cons head tail =>
      have hused := hhead head (by simp)
      have hsize := hpos head List.mem_cons_self
      refine .inr ⟨⟨total pre, head.size, head.used⟩,
        mem_live.mpr ⟨?_, hused⟩, Nat.le_refl _, ?_⟩
      · simp [place]
      · simp only
        omega

/-- A free segment of a coalesced tiling is a maximal run. -/
theorem freeRun_of_mem {segs : List Seg} (hpos : ∀ seg ∈ segs, 0 < seg.size)
    (hapart : segs.IsChain Apart) {lo n : Nat}
    (hmem : ⟨lo, n, false⟩ ∈ place 0 segs) :
    FreeRun (live 0 segs) (total segs) lo (lo + n) := by
  have hbounds := place_bounds hmem
  obtain ⟨pre, post, rfl, hlo⟩ := exists_split_of_mem_place hmem
  have hn := hpos ⟨n, false⟩ (by simp)
  simp only [Nat.zero_add] at hlo hbounds hn
  subst hlo
  obtain ⟨hlast, hhead⟩ := used_of_isChain_free hapart
  refine ⟨by omega, hbounds.2, ?_, ?_, ?_⟩
  · rintro x hlo hhi ⟨block, hblock, hfirst, hlast⟩
    obtain ⟨hplace, hused⟩ := mem_live.mp hblock
    have hne : block ≠ ⟨total pre, n, false⟩ := by
      rintro rfl
      cases hused
    have hsep := place_disjoint hplace hmem hne
    simp only at hsep
    omega
  · exact taken_left (fun seg hseg => hpos seg (by simp [hseg])) hlast _
  · have hright := taken_right (pre ++ [⟨n, false⟩])
      (fun seg hseg => hpos seg (by simp [hseg])) hhead
    simpa [total] using hright

/-- The maximal runs of a coalesced tiling are its free segments. -/
theorem mem_of_freeRun {segs : List Seg} (hpos : ∀ seg ∈ segs, 0 < seg.size)
    (hapart : segs.IsChain Apart) {lo hi : Nat}
    (h : FreeRun (live 0 segs) (total segs) lo hi) :
    ⟨lo, hi - lo, false⟩ ∈ place 0 segs := by
  have hlt := h.lt
  have hinside := h.inside
  have htaken : Taken (place 0 segs) lo :=
    exists_block_at (by omega) (by omega)
  obtain ⟨⟨offset, n, used⟩, hblock, hfirst, hlast⟩ := htaken
  cases used with
  | true =>
      exact absurd ⟨_, mem_live.mpr ⟨hblock, rfl⟩, hfirst, hlast⟩
        (h.isFree lo (Nat.le_refl _) hlt)
  | false =>
      have hrun := freeRun_of_mem hpos hapart hblock
      simp only at hfirst hlast
      have hlo : lo = offset := by
        by_contra hne
        rcases h.left with hzero | htaken
        · omega
        · exact hrun.isFree (lo - 1) (by omega) (by omega) htaken
      have hhi : hi = offset + n := by
        rcases Nat.lt_trichotomy hi (offset + n) with hless | heq | hmore
        · rcases h.right with hend | htaken
          · have hbound := hrun.inside
            omega
          · exact absurd htaken (hrun.isFree hi (by omega) hless)
        · exact heq
        · rcases hrun.right with hend | htaken
          · omega
          · exact absurd htaken (h.isFree _ (by omega) hmore)
      subst hlo hhi
      rwa [Nat.add_sub_cancel_left]

/-- A leading free run of a coalesced tiling ends where the next used block
starts, so another tiling that has all of its used blocks cannot begin with a
longer free run. -/
theorem free_head_le {start n k : Nat} {left right : List Seg}
    (hleft : (⟨n, false⟩ :: left : List Seg).IsChain Apart)
    (htotal : total (⟨n, false⟩ :: left) = total (⟨k, false⟩ :: right))
    (hlive : ∀ block ∈ live start (⟨n, false⟩ :: left),
      block ∈ live start (⟨k, false⟩ :: right)) : k ≤ n := by
  by_contra hlt
  cases left with
  | nil =>
      simp only [total] at htotal
      omega
  | cons head tail =>
      have hused : head.used = true := by
        rcases (List.isChain_cons_cons.mp hleft).1 with hfree | hused
        · exact absurd hfree Bool.false_ne_true
        · exact hused
      have hmem : (⟨start + n, head.size, true⟩ : Block) ∈
          live start (⟨k, false⟩ :: right) := by
        apply hlive
        rw [live_cons_free, mem_live]
        simp [place, hused]
      rw [live_cons_free, mem_live] at hmem
      have hbound := (place_bounds hmem.1).1
      simp only at hbound
      omega

/-- A used head shows up in the other tiling as its head. -/
theorem used_head_eq {start n : Nat} {left right : List Seg}
    (hpos : ∀ seg ∈ right, 0 < seg.size)
    (htotal : total (⟨n, true⟩ :: left) = total right) (hn : 0 < n)
    (hlive : ∀ block ∈ live start (⟨n, true⟩ :: left),
      block ∈ live start right) :
    ∃ rest, right = ⟨n, true⟩ :: rest := by
  have hmem : (⟨start, n, true⟩ : Block) ∈ live start right := by
    apply hlive
    simp [live_cons_used]
  cases right with
  | nil =>
      simp only [total] at htotal
      omega
  | cons head tail =>
      have hhead : (⟨start, head.size, head.used⟩ : Block) ∈
          place start (head :: tail) := by
        simp [place]
      have heq := eq_of_offset_eq hpos (mem_live.mp hmem).1 hhead rfl
      simp only [Block.mk.injEq, true_and] at heq
      exact ⟨tail, by rw [heq.1, heq.2]⟩

/-- The used blocks behind a used head are the used blocks of the tail. -/
theorem live_tail_iff {start n : Nat} {left right : List Seg} (hn : 0 < n)
    (hlive : ∀ block, block ∈ live start (⟨n, true⟩ :: left) ↔
      block ∈ live start (⟨n, true⟩ :: right)) (block : Block) :
    block ∈ live (start + n) left ↔ block ∈ live (start + n) right := by
  have h := hlive block
  rw [live_cons_used, live_cons_used, List.mem_cons, List.mem_cons] at h
  have hne : ∀ segs, block ∈ live (start + n) segs →
      block ≠ ⟨start, n, true⟩ := by
    intro segs hmem heq
    have hbound := (place_bounds (mem_live.mp hmem).1).1
    rw [heq] at hbound
    simp only at hbound
    omega
  constructor
  · intro hmem
    exact (h.mp (Or.inr hmem)).resolve_left (hne left hmem)
  · intro hmem
    exact (h.mpr (Or.inr hmem)).resolve_left (hne right hmem)

/-- Canonicity: two coalesced tilings of the same interval with the same used
blocks are equal.  The induction walks both tilings from the left; where both
are free, the shorter free run would have to end at a used block that the
other tiling does not have. -/
theorem eq_of_live_eq {start : Nat} {left right : List Seg}
    (hposLeft : ∀ seg ∈ left, 0 < seg.size)
    (hposRight : ∀ seg ∈ right, 0 < seg.size)
    (hleft : left.IsChain Apart) (hright : right.IsChain Apart)
    (htotal : total left = total right)
    (hlive : ∀ block, block ∈ live start left ↔ block ∈ live start right) :
    left = right := by
  induction left generalizing start right with
  | nil =>
      cases right with
      | nil => rfl
      | cons head tail =>
          have hhead := hposRight head List.mem_cons_self
          simp only [total] at htotal
          omega
  | cons seg left ih =>
      have hposTail : ∀ s ∈ left, 0 < s.size := fun s hs =>
        hposLeft s (List.mem_cons_of_mem seg hs)
      have hseg := hposLeft seg List.mem_cons_self
      rcases seg with ⟨n, used⟩
      cases used with
      | true =>
          obtain ⟨rest, rfl⟩ := used_head_eq hposRight htotal hseg
            fun block hmem => (hlive block).mp hmem
          rw [ih hposTail
            (fun s hs => hposRight s (List.mem_cons_of_mem _ hs))
            hleft.tail hright.tail (by simpa [total] using htotal)
            (live_tail_iff hseg hlive)]
      | false =>
          cases right with
          | nil =>
              simp only [total] at htotal hseg
              omega
          | cons head rest =>
              have hhead := hposRight head List.mem_cons_self
              rcases head with ⟨k, used⟩
              cases used with
              | true =>
                  obtain ⟨tail, heq⟩ := used_head_eq hposLeft htotal.symm
                    hhead fun block hmem => (hlive block).mpr hmem
                  simp at heq
              | false =>
                  have hkn := free_head_le hleft htotal
                    fun block hmem => (hlive block).mp hmem
                  have hnk := free_head_le hright htotal.symm
                    fun block hmem => (hlive block).mpr hmem
                  obtain rfl : n = k := Nat.le_antisymm hnk hkn
                  rw [ih hposTail
                    (fun s hs => hposRight s (List.mem_cons_of_mem _ hs))
                    hleft.tail hright.tail (by simpa [total] using htotal)
                    (by simpa only [live_cons_free] using hlive)]

end Tiling
