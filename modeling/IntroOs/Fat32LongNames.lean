/-
The long-name state machine of a directory scan: what each kind of entry does
to it, and that the pieces of a set, last piece first, assemble to the
concatenation of their characters.
-/
import IntroOs.Fat32Scan
import Mathlib.Data.List.Induction

namespace ByteMem

theorem map_copy_self (m : Mem) (a n : Nat) (src : Mem) :
    (List.range' a n).map (copy m a n src) = (List.range n).map src := by
  rw [List.range'_eq_map_range, List.map_map]
  apply List.map_congr_left
  intro i hi
  have hlt := List.mem_range.mp hi
  simp [copy, hlt]

theorem map_copy_of_le (m : Mem) {a n b : Nat} (k : Nat) (src : Mem)
    (h : a + n ≤ b) :
    (List.range' b k).map (copy m a n src) = (List.range' b k).map m := by
  apply List.map_congr_left
  intro i hi
  have hle := (List.mem_range'_1.mp hi).1
  rw [copy, if_neg (by omega)]

end ByteMem

namespace IntroOs

open ByteMem

namespace Fat32

/-- Only letters are changed by `upper`, and only to capitals. -/
theorem eq_of_upper {c d : UInt8} (h : upper c = d)
    (hd : ¬ (0x41 ≤ d ∧ d ≤ 0x5A)) : c = d := by
  have hall : ∀ n < 256, upper (UInt8.ofNat n) = UInt8.ofNat n ∨
      0x41 ≤ upper (UInt8.ofNat n) ∧ upper (UInt8.ofNat n) ≤ 0x5A := by
    decide +kernel
  have hc := hall c.toNat c.toNat_lt
  rw [UInt8.ofNat_toNat, h] at hc
  exact (hc.resolve_right hd).symm

theorem equalNocase_iff {a b : List UInt8} :
    equalNocase a b = true ↔ a.map upper = b.map upper := by
  induction a generalizing b with
  | nil => cases b <;> simp [equalNocase]
  | cons c a ih =>
      cases b with
      | nil => simp [equalNocase]
      | cons d b =>
          simp only [equalNocase, Bool.and_eq_true, beq_iff_eq] at ih
          simp [equalNocase, ← ih]
          tauto

/-- A live long-name entry. -/
structure IsLfn (e : Mem) : Prop where
  not_end : e 0 ≠ 0x00
  not_deleted : e 0 ≠ 0xE5
  attr : e 11 = kAttrLfn

/-- A live entry of a file or directory. -/
structure IsShort (e : Mem) : Prop where
  not_end : e 0 ≠ 0x00
  not_deleted : e 0 ≠ 0xE5
  attr : e 11 &&& kAttrVolumeId = 0

instance (e : Mem) : Decidable (IsLfn e) :=
  decidable_of_iff (e 0 ≠ 0x00 ∧ e 0 ≠ 0xE5 ∧ e 11 = kAttrLfn)
    ⟨fun h => ⟨h.1, h.2.1, h.2.2⟩,
      fun h => ⟨h.not_end, h.not_deleted, h.attr⟩⟩

instance (e : Mem) : Decidable (IsShort e) :=
  decidable_of_iff (e 0 ≠ 0x00 ∧ e 0 ≠ 0xE5 ∧ e 11 &&& kAttrVolumeId = 0)
    ⟨fun h => ⟨h.1, h.2.1, h.2.2⟩,
      fun h => ⟨h.not_end, h.not_deleted, h.attr⟩⟩

theorem IsShort.not_lfn {e : Mem} (h : IsShort e) : e 11 ≠ kAttrLfn := by
  intro hattr
  have hvolume := h.attr
  rw [hattr] at hvolume
  exact absurd hvolume (by decide)

section Entries

variable {name : List UInt8} {lfn lfn' : Lfn} {e : Mem}

theorem scanEntry_lfn (h : IsLfn e) :
    scanEntry name lfn e = .more (lfn.piece e) := by
  rw [scanEntry, if_neg h.not_end, if_neg h.not_deleted, if_pos h.attr]

/-- A short entry is found by the long name under assembly, if that is its
own, and by its short name. -/
theorem scanEntry_short (h : IsShort e) :
    scanEntry name lfn e =
      if (lfn.ok = true ∧ shortNameChecksum e = lfn.checksum ∧
          lfn.name.map upper = name.map upper) ∨
          (formatShortName e).map upper = name.map upper then
        .found (Entry.ofShort e)
      else .more { lfn with ok := false } := by
  rw [scanEntry, if_neg h.not_end, if_neg h.not_deleted,
    if_neg h.not_lfn, shortEntry, if_neg (by simp [h.attr])]
  simp only [Bool.or_eq_true, Bool.and_eq_true, beq_iff_eq, equalNocase_iff,
    and_assoc]

/-- Only a long-name entry leaves a name under assembly. -/
theorem scanEntry_more (h : scanEntry name lfn e = .more lfn')
    (hok : lfn'.ok = true) : IsLfn e ∧ lfn' = lfn.piece e := by
  rw [scanEntry] at h
  split at h
  · cases h
  rename_i hend
  split at h
  · cases h
    cases hok
  rename_i hdeleted
  split at h
  · rename_i hattr
    cases h
    exact ⟨⟨hend, hdeleted, hattr⟩, rfl⟩
  · simp only [shortEntry] at h
    split at h
    · cases h
      cases hok
    · split at h
      · cases h
      · cases h
        cases hok

theorem scanEntry_found {entry : Entry}
    (h : scanEntry name lfn e = .found entry) : IsShort e := by
  rw [scanEntry] at h
  split at h
  · cases h
  rename_i hend
  split at h
  · cases h
  rename_i hdeleted
  split at h
  · cases h
  · simp only [shortEntry] at h
    split at h
    · cases h
    · rename_i hvolume
      exact ⟨hend, hdeleted, by simpa using hvolume⟩

theorem eq_ofShort_of_found {entry : Entry}
    (h : scanEntry name lfn e = .found entry) : entry = Entry.ofShort e := by
  rw [scanEntry_short (scanEntry_found h)] at h
  split at h
  · cases h
    rfl
  · cases h

/-- Long-name entries only feed the assembly. -/
theorem scanEntries_lfn {pieces : List Mem} (h : ∀ e ∈ pieces, IsLfn e) :
    scanEntries name pieces lfn = .more (pieces.foldl Lfn.piece lfn) := by
  induction pieces generalizing lfn with
  | nil => rfl
  | cons e pieces ih =>
      rw [scanEntries_cons, scanEntry_lfn (h e List.mem_cons_self)]
      exact ih fun x hx => h x (List.mem_cons_of_mem e hx)

end Entries

/-- The buffer with the characters of a piece put in their place. -/
def putPiece (buf : Mem) (e : Mem) : Mem :=
  copy buf ((pieceSeq e - 1) * 13) 13 fun i => (pieceChars e).getD i 0

section Pieces

variable {lfn : Lfn} {e : Mem}

/-- The first piece on disk starts a name, whatever was there before. -/
theorem Lfn.piece_first (hpos : 1 ≤ pieceSeq e) (hle : pieceSeq e ≤ 20)
    (hflag : e 0 &&& 0x40 ≠ 0) :
    lfn.piece e =
      { buf := putPiece (fun _ => 0) e, len := pieceSeq e * 13, ok := true,
        checksum := e 13 } := by
  simp only [Lfn.piece]
  rw [if_neg (by simp only [kMaxNameLen]; omega), if_pos hflag]
  rfl

theorem Lfn.piece_next (hpos : 1 ≤ pieceSeq e) (hle : pieceSeq e ≤ 20)
    (hflag : e 0 &&& 0x40 = 0) (hok : lfn.ok = true)
    (hsum : e 13 = lfn.checksum) :
    lfn.piece e = { lfn with buf := putPiece lfn.buf e } := by
  simp only [Lfn.piece]
  rw [if_neg (by simp only [kMaxNameLen]; omega), if_neg (by simpa using hflag),
    if_neg (by simp [hok, hsum])]
  rfl

/-- What a piece must have for a name to be under assembly behind it. -/
theorem Lfn.piece_ok (h : (lfn.piece e).ok = true) :
    1 ≤ pieceSeq e ∧ pieceSeq e ≤ 20 ∧ (lfn.piece e).checksum = e 13 ∧
      (e 0 &&& 0x40 ≠ 0 ∨
        e 0 &&& 0x40 = 0 ∧ lfn.ok = true ∧ e 13 = lfn.checksum) := by
  simp only [Lfn.piece] at h ⊢
  split at h
  · cases h
  rename_i hseq
  rw [if_neg hseq]
  simp only [kMaxNameLen] at hseq
  split at h
  · rename_i hflag
    rw [if_pos hflag]
    exact ⟨by omega, by omega, rfl, Or.inl hflag⟩
  rename_i hflag
  rw [if_neg hflag]
  split at h
  · cases h
  · rename_i hown
    simp only [not_or, Bool.not_eq_false, ne_eq, Decidable.not_not]
      at hown hflag
    rw [if_neg (by simp [hown])]
    exact ⟨by omega, by omega, hown.2.symm, Or.inr ⟨hflag, hown⟩⟩

end Pieces

/-- The thirteen UTF-16 units of a piece. -/
def pieceUnits (e : Mem) : List Nat := kOffsets.map fun off => le16 e off

theorem pieceChars_eq (e : Mem) : pieceChars e = (pieceUnits e).map lfnChar := by
  simp [pieceChars, pieceUnits]

theorem flatMap_pieceChars (pieces : List Mem) :
    pieces.flatMap pieceChars = (pieces.flatMap pieceUnits).map lfnChar := by
  rw [List.map_flatMap, funext pieceChars_eq]

theorem map_getD_pieceChars (e : Mem) :
    (List.range 13).map (fun i => (pieceChars e).getD i 0) = pieceChars e := by
  rfl

/-- The ordinal of piece `seq` of `n`; the last one carries the flag. -/
def ordinal (n seq : Nat) : UInt8 :=
  UInt8.ofNat (if seq = n then seq + 0x40 else seq)

theorem ordinal_facts {n seq : Nat} (hpos : 1 ≤ seq) (hle : seq ≤ 20) :
    ordinal n seq ≠ 0x00 ∧ ordinal n seq ≠ 0xE5 ∧
      (ordinal n seq &&& 0x3F).toNat = seq ∧
      (ordinal n seq &&& 0x40 ≠ 0 ↔ seq = n) := by
  have hall : ∀ flag : Bool, ∀ seq < 21, 1 ≤ seq →
      let o := UInt8.ofNat (if flag then seq + 0x40 else seq)
      o ≠ 0x00 ∧ o ≠ 0xE5 ∧ (o &&& 0x3F).toNat = seq ∧
        (o &&& 0x40 ≠ 0 ↔ flag = true) := by
    decide
  have h := hall (decide (seq = n)) seq (by omega) hpos
  simpa [ordinal] using h

/-- Piece `seq` of a set of `n` that carries the checksum `sum`. -/
structure IsPiece (n : Nat) (sum : UInt8) (seq : Nat) (e : Mem) : Prop where
  ordinal : e 0 = ordinal n seq
  attr : e 11 = kAttrLfn
  checksum : e 13 = sum

theorem IsPiece.seq {n seq : Nat} {sum : UInt8} {e : Mem}
    (h : IsPiece n sum seq e) (hpos : 1 ≤ seq) (hle : seq ≤ 20) :
    pieceSeq e = seq ∧ (e 0 &&& 0x40 ≠ 0 ↔ seq = n) := by
  obtain ⟨-, -, hseq, hflag⟩ := @ordinal_facts n seq hpos hle
  rw [← h.ordinal] at hseq hflag
  exact ⟨hseq, hflag⟩

/-- The first pieces on disk of a set of `n`: ordinals from `n` downwards. -/
structure IsRun (n : Nat) (sum : UInt8) (pieces : List Mem) : Prop where
  pos : 1 ≤ n
  le : n ≤ 20
  length_le : pieces.length ≤ n
  piece : ∀ (k : Nat) (h : k < pieces.length),
    IsPiece n sum (n - k) pieces[k]

namespace IsRun

variable {n : Nat} {sum : UInt8} {pieces : List Mem} {e : Mem}

theorem lfn_of_mem (h : IsRun n sum pieces) (he : e ∈ pieces) : IsLfn e := by
  obtain ⟨k, hk, rfl⟩ := List.getElem_of_mem he
  have hpiece := h.piece k hk
  have hlen := h.length_le
  have hle := h.le
  obtain ⟨hend, hdeleted, -⟩ :=
    @ordinal_facts n (n - k) (by omega) (by omega)
  exact ⟨hpiece.ordinal ▸ hend, hpiece.ordinal ▸ hdeleted, hpiece.attr⟩

theorem init (h : IsRun n sum (pieces ++ [e])) : IsRun n sum pieces := by
  have hlen := h.length_le
  rw [List.length_append, List.length_singleton] at hlen
  refine ⟨h.pos, h.le, by omega, ?_⟩
  intro k hk
  have hpiece := h.piece k (by rw [List.length_append]; omega)
  rwa [List.getElem_append_left hk] at hpiece

theorem last (h : IsRun n sum (pieces ++ [e])) :
    IsPiece n sum (n - pieces.length) e := by
  have hpiece := h.piece pieces.length (by simp)
  rwa [List.getElem_append_right (Nat.le_refl _), List.getElem_singleton]
    at hpiece

theorem singleton (hpos : 1 ≤ n) (hle : n ≤ 20) (he : IsPiece n sum n e) :
    IsRun n sum [e] := by
  refine ⟨hpos, hle, hpos, ?_⟩
  intro k hk
  cases Nat.lt_one_iff.mp hk
  exact he

theorem concat (h : IsRun n sum pieces) (hlen : pieces.length < n)
    (he : IsPiece n sum (n - pieces.length) e) :
    IsRun n sum (pieces ++ [e]) := by
  refine ⟨h.pos, h.le, by rw [List.length_append]; exact hlen, ?_⟩
  intro k hk
  rw [List.length_append, List.length_singleton] at hk
  by_cases hlast : k < pieces.length
  · rw [List.getElem_append_left hlast]
    exact h.piece k hlast
  · have hk : k = pieces.length := by omega
    subst hk
    rw [List.getElem_append_right (Nat.le_refl _), List.getElem_singleton]
    exact he

end IsRun

/-- The state of the assembly behind the pieces of a run. -/
structure Assembled (n : Nat) (sum : UInt8) (pieces : List Mem)
    (lfn : Lfn) : Prop where
  ok : lfn.ok = true
  checksum : lfn.checksum = sum
  len : lfn.len = n * 13
  chars : (List.range' ((n - pieces.length) * 13) (pieces.length * 13)).map
    lfn.buf = pieces.reverse.flatMap pieceChars

/-- A piece adds its characters in front of those of the pieces before it. -/
theorem map_putPiece {n : Nat} {pieces : List Mem} {e : Mem} {buf : Mem}
    (hlen : pieces.length < n) (hseq : pieceSeq e = n - pieces.length)
    (hchars : (List.range' ((n - pieces.length) * 13)
      (pieces.length * 13)).map buf = pieces.reverse.flatMap pieceChars) :
    (List.range' ((n - (pieces ++ [e]).length) * 13)
      ((pieces ++ [e]).length * 13)).map (putPiece buf e) =
        (pieces ++ [e]).reverse.flatMap pieceChars := by
  have hstart : (n - (pieces.length + 1)) * 13 = (pieceSeq e - 1) * 13 := by
    rw [hseq]
    congr 1
  have hsplit : (pieces.length + 1) * 13 = 13 + pieces.length * 13 := by
    omega
  have hnext : (pieceSeq e - 1) * 13 + 13 = (n - pieces.length) * 13 := by
    omega
  rw [List.length_append, List.length_singleton, hstart, hsplit,
    ← List.range'_append_1, List.map_append, hnext, putPiece,
    map_copy_self, map_getD_pieceChars,
    map_copy_of_le buf _ _ (by omega), hchars]
  simp

theorem Assembled.first {n : Nat} {sum : UInt8} {e : Mem} {lfn : Lfn}
    (hpos : 1 ≤ n) (hle : n ≤ 20) (he : IsPiece n sum n e) :
    Assembled n sum [e] (lfn.piece e) := by
  obtain ⟨hseq, hflag⟩ := he.seq hpos hle
  rw [Lfn.piece_first (hseq ▸ hpos) (hseq ▸ hle) (hflag.mpr rfl)]
  refine ⟨rfl, he.checksum, by rw [hseq], ?_⟩
  exact @map_putPiece n [] e (fun _ => 0) hpos hseq (by simp)

theorem Assembled.next {n : Nat} {sum : UInt8} {pieces : List Mem} {e : Mem}
    {lfn : Lfn} (h : Assembled n sum pieces lfn) (hne : pieces ≠ [])
    (hlen : pieces.length < n) (hle : n ≤ 20)
    (he : IsPiece n sum (n - pieces.length) e) :
    Assembled n sum (pieces ++ [e]) (lfn.piece e) := by
  have hsome := List.length_pos_iff.mpr hne
  obtain ⟨hseq, hflag⟩ := he.seq (by omega) (by omega)
  have hnoflag : e 0 &&& 0x40 = 0 := by
    by_contra hset
    have hfirst := hflag.mp hset
    omega
  rw [Lfn.piece_next (by omega) (by omega) hnoflag h.ok
    (he.checksum.trans h.checksum.symm)]
  exact ⟨h.ok, h.checksum, h.len, map_putPiece hlen hseq h.chars⟩

/-- Pieces of a run assemble from any state of the scan. -/
theorem IsRun.assembled {n : Nat} {sum : UInt8} {pieces : List Mem}
    (h : IsRun n sum pieces) (hne : pieces ≠ []) (lfn : Lfn) :
    Assembled n sum pieces (pieces.foldl Lfn.piece lfn) := by
  induction pieces using List.reverseRecOn with
  | nil => exact absurd rfl hne
  | append_singleton pieces e ih =>
      have hlen := h.length_le
      rw [List.length_append, List.length_singleton] at hlen
      rw [List.foldl_append, List.foldl_cons, List.foldl_nil]
      by_cases hfirst : pieces = []
      · subst hfirst
        exact Assembled.first h.pos h.le h.last
      · exact (ih h.init hfirst).next hfirst hlen h.le h.last

/-- The name of a whole set: its characters in order, up to the terminator. -/
theorem Assembled.name_eq {n : Nat} {sum : UInt8} {pieces : List Mem}
    {lfn : Lfn} (h : Assembled n sum pieces lfn) (hlen : pieces.length = n) :
    lfn.name = (pieces.reverse.flatMap pieceChars).takeWhile (· ≠ 0) := by
  rw [Lfn.name, ← h.chars, h.len, hlen, Nat.sub_self, Nat.zero_mul,
    List.range_eq_range']

end Fat32

end IntroOs
