/-
What the heap's byte-level operations do to a tiled arena.  `Tags` says that
the boundary tags of a list of segments lie in memory; `malloc` and `free`
rewrite one run of segments and leave every other byte alone.
-/
import IntroOs.Heap

namespace IntroOs

namespace Heap

open ByteMem Tiling

theorem add64_eq {a b : Nat} (h : a + b < 2 ^ 64) : add64 a b = a + b := by
  rw [add64, Nat.mod_eq_of_lt h]

theorem sub64_eq {a b : Nat} (hle : b ≤ a) (ha : a < 2 ^ 64) :
    sub64 a b = a - b := by
  unfold sub64
  omega

/-- Clearing the low four bits of a 64-bit value rounds it down to 16. -/
theorem land_not_fifteen {x : Nat} (hx : x < 2 ^ 64) :
    x &&& (2 ^ 64 - 1 - (16 - 1)) = x / 16 * 16 := by
  have hmask : 2 ^ 64 - 1 - (16 - 1) = (2 ^ 60 - 1) <<< 4 := by decide
  have hround : x / 16 * 16 = (x >>> 4) <<< 4 := by
    rw [Nat.shiftRight_eq_div_pow, Nat.shiftLeft_eq]
  rw [hmask, hround]
  apply Nat.eq_of_testBit_eq
  intro i
  simp only [Nat.testBit_and, Nat.testBit_shiftLeft, Nat.testBit_shiftRight,
    Nat.testBit_two_pow_sub_one]
  by_cases hi : i ≥ 4
  · have hshift : 4 + (i - 4) = i := by omega
    rw [hshift]
    by_cases hlt : i < 64
    · have : i - 4 < 60 := by omega
      simp [hi, this]
    · have hpow : x < 2 ^ i :=
        Nat.lt_of_lt_of_le hx (Nat.pow_le_pow_right (by omega) (by omega))
      simp [Nat.testBit_lt_two_pow hpow]
  · simp [hi]

/-- A request whose block size does not wrap around. -/
def Fits (size : Nat) : Prop := (size + 15) / 16 * 16 + 32 ≤ 2 ^ 64 - 1

theorem neededFor_eq {size : Nat} (h : Fits size) :
    neededFor size = (size + 15) / 16 * 16 + 32 := by
  unfold Fits at h
  have hadd : add64 size 16 = size + 16 := add64_eq (by omega)
  have hsub : sub64 (size + 16) 1 = size + 15 := sub64_eq (by omega) (by omega)
  unfold neededFor alignUp kAlignment kTagSize
  rw [hadd, hsub, land_not_fifteen (by omega)]
  exact add64_eq (by omega)

theorem readTag_writeTag_same (m : Mem) (a : Nat) {tag : Tag}
    (hsize : tag.blockSize < 2 ^ 64) (huse : tag.inUse < 2 ^ 64) :
    readTag (writeTag m a tag) a = tag := by
  unfold readTag writeTag
  have hfirst : load (store (store m a 8 tag.blockSize) (a + 8) 8 tag.inUse)
      a 8 = tag.blockSize := by
    rw [load_eq_of_eqOutside (store_eqOutside _ _ _ _) (Or.inl (by omega))]
    exact load_store_same m a 8 _ (by simpa using hsize)
  rw [hfirst, load_store_same _ _ _ _ (by simpa using huse)]

theorem writeTag_eqOutside (m : Mem) (a : Nat) (tag : Tag) :
    EqOutside (writeTag m a tag) m a (a + 16) := by
  apply EqOutside.trans (g := store m a 8 tag.blockSize)
  · exact (store_eqOutside _ _ _ _).mono (by omega) (by omega)
  · exact (store_eqOutside _ _ _ _).mono (by omega) (by omega)

theorem readTag_eq_of_eqOutside {left right : Mem} {lo hi a : Nat}
    (h : EqOutside left right lo hi) (hsep : a + 16 ≤ lo ∨ hi ≤ a) :
    readTag left a = readTag right a := by
  unfold readTag
  rw [load_eq_of_eqOutside h (by omega), load_eq_of_eqOutside h (by omega)]

theorem readTag_congr {left right : Mem} {a : Nat}
    (h : EqOn left right a (a + 16)) : readTag left a = readTag right a := by
  unfold readTag
  rw [load_congr (h.mono (by omega) (by omega)),
    load_congr (h.mono (by omega) (by omega))]

/-- The tag that both ends of a segment carry. -/
def tagOf (seg : Seg) : Tag := ⟨seg.size, seg.used.toNat⟩

theorem bool_toNat_lt (b : Bool) : b.toNat < 2 ^ 64 := by
  cases b <;> decide

/-- `write_tags` leaves matching tags at both ends of the block and changes
nothing outside it. -/
theorem writeTags_spec (m : Mem) (a size : Nat) (used : Bool)
    (hsize : 32 ≤ size) (hend : a + size < 2 ^ 64) :
    readTag (writeTags m a size used) a = tagOf ⟨size, used⟩ ∧
      readTag (writeTags m a size used) (a + size - 16) = tagOf ⟨size, used⟩ ∧
      EqOutside (writeTags m a size used) m a (a + size) := by
  have hheader : readTag (writeTag m a ⟨size, used.toNat⟩) a =
      ⟨size, used.toNat⟩ :=
    readTag_writeTag_same m a (show size < 2 ^ 64 by omega) (bool_toNat_lt used)
  have hfooter : footerOf (writeTag m a ⟨size, used.toNat⟩) a =
      a + size - 16 := by
    unfold footerOf kTagSize
    rw [hheader, add64_eq hend, sub64_eq (by omega) hend]
  have heq : writeTags m a size used =
      writeTag (writeTag m a ⟨size, used.toNat⟩) (a + size - 16)
        ⟨size, used.toNat⟩ := by
    simp only [writeTags, hfooter]
  rw [heq]
  refine ⟨?_, ?_, ?_⟩
  · rw [readTag_eq_of_eqOutside (writeTag_eqOutside _ _ _)
      (Or.inl (by omega)), hheader]
    rfl
  · exact readTag_writeTag_same _ _ (show size < 2 ^ 64 by omega)
      (bool_toNat_lt used)
  · apply EqOutside.trans (g := writeTag m a ⟨size, used.toNat⟩)
    · exact (writeTag_eqOutside _ _ _).mono (by omega) (by omega)
    · exact (writeTag_eqOutside _ _ _).mono (by omega) (by omega)

/-- The boundary tags of consecutive segments, from address `a` on. -/
def Tags (m : Mem) (a : Nat) : List Seg → Prop
  | [] => True
  | seg :: rest =>
      readTag m a = tagOf seg ∧ readTag m (a + seg.size - 16) = tagOf seg ∧
        Tags m (a + seg.size) rest

theorem tags_append {m : Mem} {a : Nat} {left right : List Seg} :
    Tags m a (left ++ right) ↔
      Tags m a left ∧ Tags m (a + total left) right := by
  induction left generalizing a with
  | nil => simp [Tags, total]
  | cons seg rest ih =>
      simp only [List.cons_append, Tags, total, ih, Nat.add_assoc, and_assoc]

/-- Tags only depend on the bytes of their own segments. -/
theorem Tags.congr {left right : Mem} {a : Nat} {segs : List Seg}
    (hleast : ∀ seg ∈ segs, 32 ≤ seg.size)
    (heq : EqOn left right a (a + total segs)) (h : Tags right a segs) :
    Tags left a segs := by
  induction segs generalizing a with
  | nil => trivial
  | cons seg rest ih =>
      obtain ⟨hheader, hfooter, hrest⟩ := h
      have hseg := hleast seg List.mem_cons_self
      simp only [total] at heq
      refine ⟨?_, ?_, ?_⟩
      · rw [readTag_congr (heq.mono (by omega) (by omega)), hheader]
      · rw [readTag_congr (heq.mono (by omega) (by omega)), hfooter]
      · exact ih (fun s hs => hleast s (List.mem_cons_of_mem seg hs))
          (heq.mono (by omega) (by omega)) hrest

/-- Rewriting the run `mid` inside its own bytes keeps all other tags. -/
theorem Tags.replace {left right : Mem} {a : Nat} {pre mid new post : List Seg}
    (hpre : ∀ seg ∈ pre, 32 ≤ seg.size) (hpost : ∀ seg ∈ post, 32 ≤ seg.size)
    (htags : Tags right a (pre ++ mid ++ post)) (htotal : total new = total mid)
    (hout : EqOutside left right (a + total pre) (a + total pre + total mid))
    (hnew : Tags left (a + total pre) new) :
    Tags left a (pre ++ new ++ post) := by
  rw [tags_append, tags_append] at htags ⊢
  obtain ⟨⟨htagsPre, -⟩, htagsPost⟩ := htags
  simp only [total_append] at htagsPost ⊢
  refine ⟨⟨htagsPre.congr hpre (hout.eqOn_below (Nat.le_refl _)), hnew⟩, ?_⟩
  rw [htotal]
  exact htagsPost.congr hpost (hout.eqOn_above (by omega))

theorem nextBlock_eq (A : Arena) {m : Mem} {a : Nat} {seg : Seg}
    (hheader : readTag m a = tagOf seg) (hend : a + seg.size ≤ arenaEnd A) :
    nextBlock A m a =
      if a + seg.size < arenaEnd A then some (a + seg.size) else none := by
  have hfits := A.fits
  unfold arenaEnd at hend
  simp only [nextBlock, hheader, tagOf]
  rw [add64_eq (by omega)]

theorem prevBlock_first (A : Arena) (m : Mem) : prevBlock A m A.base = none := by
  simp [prevBlock]

theorem prevBlock_eq (A : Arena) {m : Mem} {a : Nat} {seg : Seg}
    (hfooter : readTag m (a + seg.size - 16) = tagOf seg) (ha : A.base ≤ a)
    (hsize : 32 ≤ seg.size) (hend : a + seg.size < 2 ^ 64) :
    prevBlock A m (a + seg.size) = some a := by
  have hne : a + seg.size ≠ A.base := by omega
  simp only [prevBlock, hne, ↓reduceIte]
  rw [show sub64 (a + seg.size) kTagSize = a + seg.size - 16 from
    sub64_eq (by unfold kTagSize; omega) hend, hfooter]
  simp only [tagOf]
  rw [sub64_eq (by omega) hend, Nat.add_sub_cancel]

end Heap

end IntroOs
