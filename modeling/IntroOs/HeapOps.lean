/-
The heap operations on a tiled arena, one specification each.  `malloc` takes
the first free segment that fits, `free` merges a used segment with its free
neighbours, and neither touches a byte outside the run it rewrites.
-/
import IntroOs.HeapTags

namespace IntroOs

namespace Heap

open ByteMem Tiling

/-- The arena holds the boundary tags of a well-formed tiling. -/
structure Tiled (A : Arena) (m : Mem) (segs : List Seg) : Prop where
  valid : Valid kAlignment kMinBlockSize kArenaSize segs
  tags : Tags m A.base segs

namespace Tiled

variable {A : Arena} {m : Mem} {segs pre post : List Seg} {n : Nat}

theorem least (h : Tiled A m segs) : ∀ seg ∈ segs, 32 ≤ seg.size :=
  h.valid.least_le

theorem seg_pos (h : Tiled A m segs) : ∀ seg ∈ segs, 0 < seg.size :=
  h.valid.seg_pos (by decide)

theorem end_eq (h : Tiled A m segs) : A.base + total segs = arenaEnd A := by
  rw [h.valid.total_eq, arenaEnd]

theorem end_lt (h : Tiled A m segs) : A.base + total segs < 2 ^ 64 := by
  rw [h.valid.total_eq]
  exact A.fits

/-- Rewriting the run `mid` to `new` inside its own bytes. -/
theorem replace {m' : Mem} {mid new : List Seg}
    (h : Tiled A m (pre ++ mid ++ post)) (hleast : ∀ seg ∈ new, 32 ≤ seg.size)
    (hunit : ∀ seg ∈ new, 16 ∣ seg.size) (htotal : total new = total mid)
    (happart : (pre ++ new ++ post).IsChain Apart)
    (hout : EqOutside m' m (A.base + total pre)
      (A.base + total pre + total mid))
    (hnew : Tags m' (A.base + total pre) new) :
    Tiled A m' (pre ++ new ++ post) := by
  have hall := h.least
  refine ⟨h.valid.replace hleast hunit htotal happart,
    h.tags.replace (fun s hs => hall s ?_) (fun s hs => hall s ?_) htotal
      hout hnew⟩
  · simp [hs]
  · simp [hs]

end Tiled

theorem init_tiled (A : Arena) (m : Mem) :
    Tiled A (init A m) [⟨kArenaSize, false⟩] := by
  have hspec := writeTags_spec m A.base kArenaSize false (by decide)
    A.fits
  refine ⟨⟨?_, ?_, ?_, List.isChain_singleton _⟩, ?_⟩
  · simp [kMinBlockSize, kTagSize, kArenaSize]
  · simp [kAlignment, kArenaSize]
  · rfl
  · exact ⟨hspec.1, hspec.2.1, trivial⟩

/-- Where a walk over the segments at `a` stands: nowhere once they are used
up. -/
def cursor (a : Nat) : List Seg → Option Nat
  | [] => none
  | _ :: _ => some a

theorem nextBlock_cursor (A : Arena) {m : Mem} {a : Nat} {seg : Seg}
    {rest : List Seg} (hheader : readTag m a = tagOf seg)
    (hpos : ∀ s ∈ rest, 0 < s.size)
    (hend : a + total (seg :: rest) = arenaEnd A) :
    nextBlock A m a = cursor (a + seg.size) rest := by
  simp only [total] at hend
  rw [nextBlock_eq A hheader (by omega)]
  cases rest with
  | nil =>
      simp only [total] at hend
      rw [if_neg (by omega)]
      rfl
  | cons head tail =>
      have hhead := hpos head List.mem_cons_self
      simp only [total] at hend
      rw [if_pos (by omega)]
      rfl

theorem mallocLoop_eq (A : Arena) {m : Mem} {needed : Nat} {a : Nat}
    {segs : List Seg} {fuel : Nat} (hpos : ∀ seg ∈ segs, 0 < seg.size)
    (htags : Tags m a segs) (hend : a + total segs = arenaEnd A)
    (hfuel : segs.length < fuel) :
    mallocLoop A m needed fuel (cursor a segs) =
      match firstFit needed segs with
      | none => some (m, none)
      | some offset =>
          some (carve A m (a + offset) needed, some (payloadOf (a + offset))) := by
  induction segs generalizing a fuel with
  | nil =>
      obtain ⟨k, rfl⟩ : ∃ k, fuel = k + 1 := ⟨fuel - 1, by simp at hfuel; omega⟩
      rfl
  | cons seg rest ih =>
      obtain ⟨k, rfl⟩ : ∃ k, fuel = k + 1 := ⟨fuel - 1, by simp at hfuel; omega⟩
      obtain ⟨hheader, -, hrest⟩ := htags
      have hposRest : ∀ s ∈ rest, 0 < s.size := fun s hs =>
        hpos s (List.mem_cons_of_mem seg hs)
      have hnext := nextBlock_cursor A hheader hposRest hend
      have huse : (tagOf seg).inUse ≠ 0 ↔ seg.used = true := by
        cases hused : seg.used <;> simp [tagOf, hused]
      simp only [cursor, mallocLoop, hheader, huse, firstFit]
      by_cases hskip : seg.used = true ∨ seg.size < needed
      · have htail := ih hposRest hrest
          (by simp only [total] at hend; omega)
          (show rest.length < k by simpa using hfuel)
        rw [if_pos (by simpa [tagOf] using hskip), hnext, htail, if_pos hskip]
        cases firstFit needed rest with
        | none => rfl
        | some offset => simp [Nat.add_assoc]
      · rw [if_neg (by simpa [tagOf] using hskip), if_neg hskip]
        rfl

theorem Tiled.length_lt {A : Arena} {m : Mem} {segs : List Seg}
    (h : Tiled A m segs) : segs.length < loopBound := by
  have hlen := mul_length_le_total h.least
  rw [h.valid.total_eq] at hlen
  unfold loopBound kArenaSize kMinBlockSize kTagSize
  unfold kArenaSize at hlen
  omega

theorem Tiled.cursor_eq {A : Arena} {m : Mem} {segs : List Seg}
    (h : Tiled A m segs) : cursor A.base segs = some (arenaBegin A) := by
  cases segs with
  | nil => exact absurd h.valid.total_eq (by decide)
  | cons seg rest => rfl

/-- The search of `malloc` is the first fit over the tiling, and it ends. -/
theorem malloc_eq {A : Arena} {m : Mem} {segs : List Seg} {size : Nat}
    (h : Tiled A m segs) (hsize : size ≠ 0) :
    malloc A m size =
      match firstFit (neededFor size) segs with
      | none => some (m, none)
      | some offset =>
          some (carve A m (A.base + offset) (neededFor size),
            some (payloadOf (A.base + offset))) := by
  have hlen := h.length_lt
  rw [malloc, if_neg hsize, ← h.cursor_eq]
  exact mallocLoop_eq A h.seg_pos h.tags h.end_eq (by omega)

theorem walk_eq (A : Arena) {m : Mem} {a : Nat} {segs : List Seg} {fuel : Nat}
    (hpos : ∀ seg ∈ segs, 0 < seg.size) (htags : Tags m a segs)
    (hbase : A.base ≤ a) (hend : a + total segs = arenaEnd A)
    (hfuel : segs.length ≤ fuel) :
    walk A m fuel (cursor a segs) = place (a - A.base) segs := by
  induction segs generalizing a fuel with
  | nil =>
      cases fuel with
      | zero => rfl
      | succ k => rfl
  | cons seg rest ih =>
      obtain ⟨k, rfl⟩ : ∃ k, fuel = k + 1 := ⟨fuel - 1, by simp at hfuel; omega⟩
      obtain ⟨hheader, -, hrest⟩ := htags
      have hposRest : ∀ s ∈ rest, 0 < s.size := fun s hs =>
        hpos s (List.mem_cons_of_mem seg hs)
      have hnext := nextBlock_cursor A hheader hposRest hend
      have huse : decide ((tagOf seg).inUse ≠ 0) = seg.used := by
        cases hused : seg.used <;> simp [tagOf, hused]
      have htail := ih hposRest hrest (by omega)
        (by simp only [total] at hend; omega)
        (show rest.length ≤ k by simpa using hfuel)
      have hoffset : a + seg.size - A.base = a - A.base + seg.size := by omega
      rw [show cursor a (seg :: rest) = some a from rfl]
      simp only [walk, hheader, huse, hnext, htail, place, hoffset]
      rfl

/-- Walking the headers gives the blocks of the tiling. -/
theorem blocks_eq {A : Arena} {m : Mem} {segs : List Seg}
    (h : Tiled A m segs) : blocks A m = place 0 segs := by
  have hlen := h.length_lt
  have hwalk := walk_eq A h.seg_pos h.tags (Nat.le_refl _) h.end_eq
    (show segs.length ≤ loopBound by omega)
  rw [h.cursor_eq, Nat.sub_self] at hwalk
  exact hwalk

/-- Carving a free segment leaves it used, or splits it into a used part of
exactly the needed size and a free remainder. -/
theorem carve_spec {A : Arena} {m : Mem} {pre post : List Seg} {n needed : Nat}
    (h : Tiled A m (pre ++ [⟨n, false⟩] ++ post)) (hfit : needed ≤ n)
    (hunit : 16 ∣ needed) (hleast : 32 ≤ needed) :
    ∃ new, Tiled A (carve A m (A.base + total pre) needed) (pre ++ new ++ post) ∧
      EqOutside (carve A m (A.base + total pre) needed) m
        (A.base + total pre) (A.base + total pre + n) ∧
      ((needed + 32 ≤ n ∧ new = [⟨needed, true⟩, ⟨n - needed, false⟩]) ∨
        (n < needed + 32 ∧ new = [⟨n, true⟩])) := by
  have hend := h.end_lt
  have harena := h.end_eq
  have hunitN : 16 ∣ n := h.valid.unit_dvd ⟨n, false⟩ (by simp)
  have hchain := h.valid.apart
  rw [List.append_assoc] at hchain
  obtain ⟨hchainPre, hchainPost, -⟩ := List.isChain_append.mp hchain
  obtain ⟨hprev, hnext⟩ := used_of_isChain_free hchain
  have hheader : readTag m (A.base + total pre) = tagOf ⟨n, false⟩ := by
    have htags := h.tags
    rw [List.append_assoc, tags_append] at htags
    exact htags.2.1
  simp only [total_append, total] at hend harena
  set a := A.base + total pre with ha
  have hremainder : sub64 n needed = n - needed := sub64_eq hfit (by omega)
  by_cases hsplit : 32 ≤ n - needed
  · obtain ⟨hhead₁, hfoot₁, hout₁⟩ := writeTags_spec m a needed true hleast
      (by omega)
    set m₁ := writeTags m a needed true
    have hnextBlock : nextBlock A m₁ a = some (a + needed) := by
      rw [nextBlock_eq A hhead₁ (by simp only; omega), if_pos (by simp only; omega)]
    obtain ⟨hhead₂, hfoot₂, hout₂⟩ := writeTags_spec m₁ (a + needed)
      (n - needed) false hsplit (by omega)
    have hcarve : carve A m a needed =
        writeTags m₁ (a + needed) (n - needed) false := by
      simp only [carve, hheader, tagOf, hremainder, kMinBlockSize, kTagSize]
      rw [if_pos (by omega), hnextBlock]
      rfl
    have hout : EqOutside (carve A m a needed) m a (a + n) := by
      rw [hcarve]
      exact (hout₂.mono (by omega) (by omega)).trans
        (hout₁.mono (by omega) (by omega))
    refine ⟨[⟨needed, true⟩, ⟨n - needed, false⟩], ?_, hout,
      Or.inl ⟨by omega, rfl⟩⟩
    apply h.replace
    · simp only [List.mem_cons, List.not_mem_nil, or_false, forall_eq_or_imp,
        forall_eq]
      exact ⟨hleast, hsplit⟩
    · simp only [List.mem_cons, List.not_mem_nil, or_false, forall_eq_or_imp,
        forall_eq]
      exact ⟨hunit, Nat.dvd_sub hunitN hunit⟩
    · simp only [total]
      omega
    · rw [List.append_assoc]
      exact isChain_used_between hchainPre
        (isChain_free_between (List.isChain_nil : List.IsChain Apart [])
          hchainPost.tail (by simp) hnext)
    · simpa only [total, Nat.add_zero] using hout
    · rw [hcarve]
      refine ⟨?_, ?_, hhead₂, hfoot₂, trivial⟩
      · rw [readTag_eq_of_eqOutside hout₂ (Or.inl (by omega)), hhead₁]
      · rw [readTag_eq_of_eqOutside hout₂ (Or.inl (by simp only; omega)), hfoot₁]
  · have hn : 32 ≤ n := by omega
    obtain ⟨hhead₁, hfoot₁, hout₁⟩ := writeTags_spec m a n true hn
      (by omega)
    have hcarve : carve A m a needed = writeTags m a n true := by
      simp only [carve, hheader, tagOf, hremainder, kMinBlockSize, kTagSize]
      rw [if_neg (by omega)]
    rw [hcarve]
    refine ⟨[⟨n, true⟩], ?_, hout₁, Or.inr ⟨by omega, rfl⟩⟩
    apply h.replace
    · simpa using hn
    · simpa using hunitN
    · rfl
    · rw [List.append_assoc]
      exact isChain_used_between hchainPre hchainPost.tail
    · simpa only [total, Nat.add_zero] using hout₁
    · exact ⟨hhead₁, hfoot₁, trivial⟩

/-- A run of segments that `free` swallows on one side: at most one, free. -/
def Swallowed (run : List Seg) : Prop := run = [] ∨ ∃ k, run = [⟨k, false⟩]

theorem Swallowed.live_eq {run : List Seg} (h : Swallowed run) (start : Nat) :
    live start run = [] := by
  rcases h with rfl | ⟨k, rfl⟩
  · rfl
  · rw [live_cons_free, live_nil]

theorem sizeWithNext_spec {A : Arena} {m : Mem} {pre post : List Seg} {n : Nat}
    (h : Tiled A m (pre ++ ⟨n, true⟩ :: post)) :
    ∃ right post', post = right ++ post' ∧ Swallowed right ∧
      (∀ seg ∈ post'.head?, seg.used = true) ∧
      sizeWithNext A m (A.base + total pre) = n + total right := by
  have hend := h.end_lt
  have harena := h.end_eq
  obtain ⟨-, hheader, -, hpost⟩ := tags_append.mp h.tags
  have hnext := nextBlock_cursor A hheader
    (fun s (hs : s ∈ post) => h.seg_pos s (by simp [hs]))
    (by simpa [Nat.add_assoc] using harena)
  simp only [total_append, total] at hend
  cases post with
  | nil =>
      refine ⟨[], [], rfl, Or.inl rfl, by simp, ?_⟩
      simp only [sizeWithNext, hnext, hheader, tagOf, cursor,
        Option.elim_none, total, Nat.add_zero]
  | cons seg rest =>
      have hheaderNext : readTag m (A.base + total pre + n) = tagOf seg := hpost.1
      rcases seg with ⟨k, used⟩
      cases used with
      | true =>
          refine ⟨[], ⟨k, true⟩ :: rest, rfl, Or.inl rfl, by simp, ?_⟩
          simp only [sizeWithNext, hnext, hheader, hheaderNext, tagOf, cursor,
            Option.elim_some, Bool.toNat_true, one_ne_zero, ↓reduceIte, total, Nat.add_zero]
      | false =>
          have hchain : List.IsChain Apart
              (pre ++ [⟨n, true⟩] ++ ⟨k, false⟩ :: rest) := by
            simpa using h.valid.apart
          refine ⟨[⟨k, false⟩], rest, rfl, Or.inr ⟨k, rfl⟩,
            (used_of_isChain_free hchain).2, ?_⟩
          simp only [total] at hend
          simp only [sizeWithNext, hnext, hheader, hheaderNext, tagOf, cursor,
            Option.elim_some, Bool.toNat_false, ↓reduceIte, total, Nat.add_zero]
          exact add64_eq (by omega)

theorem free_eq {A : Arena} {m : Mem} {pre post : List Seg} {n : Nat}
    (h : Tiled A m (pre ++ ⟨n, true⟩ :: post)) :
    ∃ pre' left, pre = pre' ++ left ∧ Swallowed left ∧
      (∀ seg ∈ pre'.getLast?, seg.used = true) ∧
      free A m (some (A.base + total pre + 16)) =
        writeTags m (A.base + total pre')
          (total left + sizeWithNext A m (A.base + total pre)) false := by
  have hend := h.end_lt
  have hn : 32 ≤ n := h.least ⟨n, true⟩ (by simp)
  obtain ⟨right, post', rfl, -, -, hsize⟩ := sizeWithNext_spec h
  obtain ⟨htagsPre, -⟩ := tags_append.mp h.tags
  simp only [total_append, total] at hend
  have hheader : headerOf (A.base + total pre + 16) = A.base + total pre := by
    unfold headerOf kTagSize
    rw [sub64_eq (by omega) (by omega), Nat.add_sub_cancel]
  rcases List.eq_nil_or_concat' pre with rfl | ⟨pre', seg, rfl⟩
  · refine ⟨[], [], rfl, Or.inl rfl, by simp, ?_⟩
    have hbase : A.base + total [] = A.base := by simp [total]
    rw [hbase] at hheader ⊢
    simp only [free, hheader, prevBlock_first, Option.elim_none, total,
      Nat.zero_add]
  · obtain ⟨-, hheaderPrev, hfooterPrev, -⟩ := tags_append.mp htagsPre
    have hleast := h.least seg (by simp)
    have hlast : A.base + total (pre' ++ [seg]) =
        A.base + total pre' + seg.size := by
      simp [total, Nat.add_assoc]
    rw [hlast] at hheader hsize ⊢
    have hprev : prevBlock A m (A.base + total pre' + seg.size) =
        some (A.base + total pre') :=
      prevBlock_eq A hfooterPrev (by omega) hleast (by omega)
    simp only [free, hheader, hprev, hheaderPrev, Option.elim_some]
    rcases seg with ⟨k, used⟩
    cases used with
    | true =>
        refine ⟨pre' ++ [⟨k, true⟩], [], by simp, Or.inl rfl, by simp, ?_⟩
        rw [hlast]
        simp [tagOf, total]
    | false =>
        have hchain : List.IsChain Apart
            (pre' ++ ⟨k, false⟩ :: ⟨n, true⟩ :: (right ++ post')) := by
          simpa using h.valid.apart
        refine ⟨pre', [⟨k, false⟩], rfl, Or.inr ⟨k, rfl⟩,
          (used_of_isChain_free hchain).1, ?_⟩
        simp only at hlast hsize
        simp only [tagOf, Bool.toNat_false, ↓reduceIte, total, Nat.add_zero]
        rw [add64_eq (by omega), Nat.add_comm k]

/-- The segments that `free` merges into one: the freed one and whichever
neighbours are free. -/
theorem free_spec {A : Arena} {m : Mem} {pre post : List Seg} {n : Nat}
    (h : Tiled A m (pre ++ ⟨n, true⟩ :: post)) :
    ∃ pre' mid post', pre ++ ⟨n, true⟩ :: post = pre' ++ mid ++ post' ∧
      live (total pre') mid = [⟨total pre, n, true⟩] ∧
      Tiled A (free A m (some (A.base + total pre + 16)))
        (pre' ++ [⟨total mid, false⟩] ++ post') ∧
      EqOutside (free A m (some (A.base + total pre + 16))) m
        (A.base + total pre') (A.base + total pre' + total mid) := by
  obtain ⟨right, post', rfl, hright, hpost, hsize⟩ := sizeWithNext_spec h
  obtain ⟨pre', left, rfl, hleft, hpre, hfree⟩ := free_eq h
  have hsegs : (pre' ++ left) ++ ⟨n, true⟩ :: (right ++ post') =
      pre' ++ (left ++ ⟨n, true⟩ :: right) ++ post' := by
    simp
  have hmid : total (left ++ ⟨n, true⟩ :: right) =
      total left + (n + total right) := by
    simp [total]
  rw [hsegs] at h
  have hend := h.end_lt
  have hn := h.least ⟨n, true⟩ (by simp)
  have hchain := h.valid.apart
  obtain ⟨hchainLeft, hchainPost, -⟩ := List.isChain_append.mp hchain
  have hchainPre := (List.isChain_append.mp hchainLeft).1
  simp only [total_append, total] at hend hn
  rw [hfree, hsize]
  obtain ⟨hhead, hfoot, hout⟩ := writeTags_spec m (A.base + total pre')
    (total left + (n + total right)) false (by omega) (by omega)
  refine ⟨pre', left ++ ⟨n, true⟩ :: right, post', hsegs, ?_, ?_, ?_⟩
  · rw [live_append, hleft.live_eq, live_cons_used, hright.live_eq]
    simp
  · rw [hmid]
    apply h.replace
    · simp only [List.mem_singleton, forall_eq]
      omega
    · simp only [List.mem_singleton, forall_eq]
      rw [← hmid]
      exact dvd_total fun s hs => h.valid.unit_dvd s (by
        rw [List.mem_append, List.mem_append]
        exact Or.inl (Or.inr hs))
    · simp [total]
    · rw [List.append_assoc]
      exact isChain_free_between hchainPre hchainPost hpre hpost
    · rw [hmid]
      exact hout
    · exact ⟨hhead, hfoot, trivial⟩
  · rw [hmid]
    exact hout

end Heap

end IntroOs
