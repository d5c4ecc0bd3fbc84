/-
When a long name is trusted.  The scan checks the flag of the first piece and
the checksum of every piece, but not that the ordinals count down to one: a
run with a piece missing still passes, under a name cut at the gap.  A match
through a long name is one through a complete set exactly when the ordinals of
the run do count down and its units are ASCII, and units past ASCII match as
if they were `?`.
-/
import IntroOs.Fat32LongNames
import Mathlib.Data.List.Chain
import Mathlib.Data.List.TakeWhile

namespace IntroOs

open ByteMem

namespace Fat32

/-- The scan of a directory ends with a match at `e`, behind `front`. -/
structure MatchAt (v : Fat32) (dirCluster : Nat) (name : List UInt8)
    (front : List Mem) (e : Mem) (entry : Entry) : Prop where
  split : ∃ back, directory v dirCluster = front ++ e :: back
  scan : ∃ lfn, scanEntries name front Lfn.start = .more lfn ∧
    scanEntry name lfn e = .found entry

/-- The units of a set in the order of the name, up to the terminator. -/
def runUnits (pieces : List Mem) : List Nat :=
  (pieces.reverse.flatMap pieceUnits).takeWhile
    fun u => u ≠ 0 ∧ u ≠ 0xFFFF

/-- ASCII upper case of a UTF-16 unit. -/
def upperUnit (u : Nat) : Nat := if 0x61 ≤ u ∧ u ≤ 0x7A then u - 0x20 else u

/-- The entries right before `e` are a complete set that carries its checksum
and spells `name`, ignoring ASCII case. -/
def CompleteRun (front : List Mem) (e : Mem) (name : List UInt8) : Prop :=
  ∃ n before pieces, front = before ++ pieces ∧ pieces.length = n ∧
    IsRun n (shortNameChecksum e) pieces ∧
    name.map (fun c => (upper c).toNat) = (runUnits pieces).map upperUnit

/-- The long-name entries at the head of a reversed directory, up to and with
the first that carries the flag. -/
def runBack : List Mem → List Mem
  | [] => []
  | e :: rest =>
      if IsLfn e then if e 0 &&& 0x40 ≠ 0 then [e] else e :: runBack rest
      else []

/-- The run at the end of some entries: the long-name entries there from the
last that carries the flag on. -/
def lastRun (front : List Mem) : List Mem := (runBack front.reverse).reverse

/-- The ordinals of a run count down by one to one, without bit 7, and the
units in front of the terminator are ASCII. -/
structure CountsDown (run : List Mem) : Prop where
  steps : run.IsChain fun a b => pieceSeq a = pieceSeq b + 1
  ends : ∀ e ∈ run.getLast?, pieceSeq e = 1
  bits : ∀ e ∈ run, e 0 < 0x80
  ascii : ∀ u ∈ runUnits run, u < 0x80

/-- What the scan checks of a run: the flag on its first entry only, one
checksum, and ordinals from 1 to 20. -/
structure IsChecked (sum : UInt8) (run : List Mem) : Prop where
  flags : ∃ first rest, run = first :: rest ∧ first 0 &&& 0x40 ≠ 0 ∧
    ∀ e ∈ rest, e 0 &&& 0x40 = 0
  pieces : ∀ e ∈ run, IsLfn e ∧ e 13 = sum ∧ 1 ≤ pieceSeq e ∧ pieceSeq e ≤ 20

theorem lastRun_concat (front : List Mem) (e : Mem) :
    lastRun (front ++ [e]) =
      if IsLfn e then
        if e 0 &&& 0x40 ≠ 0 then [e] else lastRun front ++ [e]
      else [] := by
  simp only [lastRun, List.reverse_append, List.reverse_singleton,
    List.singleton_append, runBack]
  split
  · split
    · rfl
    · exact List.reverse_cons
  · rfl

/-- Behind a run the scan has what the run assembles from some state. -/
theorem IsRun.scan_eq {name : List UInt8} {sum : UInt8}
    {before pieces : List Mem} {lfn : Lfn}
    (h : IsRun pieces.length sum pieces)
    (hscan : scanEntries name (before ++ pieces) Lfn.start = .more lfn) :
    ∃ lfn₀, scanEntries name before Lfn.start = .more lfn₀ ∧
      lfn = pieces.foldl Lfn.piece lfn₀ := by
  rw [scanEntries_append] at hscan
  cases hbefore : scanEntries name before Lfn.start with
  | stop => rw [hbefore] at hscan; cases hscan
  | found entry => rw [hbefore] at hscan; cases hscan
  | more lfn₀ =>
      rw [hbefore, Scan.andThen,
        scanEntries_lfn fun x hx => h.lfn_of_mem hx] at hscan
      cases hscan
      exact ⟨lfn₀, rfl, rfl⟩

/-- A match whose short name differs is one through the long name. -/
theorem scanEntry_found_long {name : List UInt8} {lfn : Lfn} {e : Mem}
    {entry : Entry} (h : scanEntry name lfn e = .found entry)
    (hshort : (formatShortName e).map upper ≠ name.map upper) :
    lfn.ok = true ∧ shortNameChecksum e = lfn.checksum ∧
      lfn.name.map upper = name.map upper := by
  rw [scanEntry_short (scanEntry_found h)] at h
  split at h
  · rename_i hmatch
    exact hmatch.resolve_right hshort
  · cases h

/-- Whatever is in front of a run, the run is the last one. -/
theorem lastRun_append {first : Mem} {rest : List Mem}
    (hlfn : ∀ e ∈ first :: rest, IsLfn e) (hflag : first 0 &&& 0x40 ≠ 0)
    (hrest : ∀ e ∈ rest, e 0 &&& 0x40 = 0) (before : List Mem) :
    lastRun (before ++ first :: rest) = first :: rest := by
  induction rest using List.reverseRecOn with
  | nil =>
      rw [lastRun_concat, if_pos (hlfn first List.mem_cons_self), if_pos hflag]
  | append_singleton rest e ih =>
      have hmem : e ∈ first :: (rest ++ [e]) := by simp
      have hinit := ih (fun x hx => hlfn x (by
          rcases List.mem_cons.mp hx with rfl | hx
          · exact List.mem_cons_self
          · exact List.mem_cons_of_mem _ (List.mem_append_left _ hx)))
        fun x hx => hrest x (List.mem_append_left _ hx)
      rw [← List.cons_append, ← List.append_assoc, lastRun_concat,
        if_pos (hlfn e hmem), if_neg (by simp [hrest e (by simp)]), hinit]

/-- A scan that arrives at an entry has a first part and that entry. -/
theorem scanEntries_found {name : List UInt8} {entries : List Mem}
    {lfn : Lfn} {entry : Entry}
    (h : scanEntries name entries lfn = .found entry) :
    ∃ front e back lfn', entries = front ++ e :: back ∧
      scanEntries name front lfn = .more lfn' ∧
      scanEntry name lfn' e = .found entry := by
  induction entries generalizing lfn with
  | nil => cases h
  | cons e entries ih =>
      rw [scanEntries_cons] at h
      cases hscan : scanEntry name lfn e with
      | more lfn₁ =>
          rw [hscan] at h
          obtain ⟨front, e', back, lfn', rfl, hfront, hfound⟩ := ih h
          refine ⟨e :: front, e', back, lfn', rfl, ?_, hfound⟩
          rw [scanEntries_cons, hscan]
          exact hfront
      | stop =>
          rw [hscan] at h
          cases h
      | found entry' =>
          rw [hscan] at h
          cases h
          exact ⟨[], e, entries, lfn, rfl, rfl, hscan⟩

theorem exists_matchAt {v : Fat32} {dirCluster : Nat} {name : List UInt8}
    {entry : Entry}
    (h : scanEntries name (directory v dirCluster) Lfn.start =
      .found entry) : ∃ front e, MatchAt v dirCluster name front e entry := by
  obtain ⟨front, e, back, lfn, hsplit, hfront, hfound⟩ := scanEntries_found h
  exact ⟨front, e, ⟨back, hsplit⟩, ⟨lfn, hfront, hfound⟩⟩

theorem eq_ordinal {o : UInt8} {n : Nat} (hbit : o < 0x80)
    (hflag : o &&& 0x40 ≠ 0 ↔ (o &&& 0x3F).toNat = n) :
    o = ordinal n (o &&& 0x3F).toNat := by
  have hall : ∀ k < 0x80,
      UInt8.ofNat k = UInt8.ofNat
        (if UInt8.ofNat k &&& 0x40 ≠ 0 then
          (UInt8.ofNat k &&& 0x3F).toNat + 0x40
        else (UInt8.ofNat k &&& 0x3F).toNat) := by
    decide
  have h := hall o.toNat hbit
  rw [UInt8.ofNat_toNat] at h
  simp only [ordinal, ← hflag]
  exact h

theorem scanEntries_concat {name : List UInt8} {front : List Mem} {e : Mem}
    {lfn lfn' : Lfn} (h : scanEntries name (front ++ [e]) lfn = .more lfn') :
    ∃ lfn₀, scanEntries name front lfn = .more lfn₀ ∧
      scanEntry name lfn₀ e = .more lfn' := by
  rw [scanEntries_append] at h
  cases hfront : scanEntries name front lfn with
  | stop => rw [hfront] at h; cases h
  | found entry => rw [hfront] at h; cases h
  | more lfn₀ =>
      rw [hfront, Scan.andThen, scanEntries_cons] at h
      cases hscan : scanEntry name lfn₀ e with
      | stop => rw [hscan] at h; cases h
      | found entry => rw [hscan] at h; cases h
      | more lfn₁ =>
          rw [hscan] at h
          cases h
          exact ⟨lfn₀, rfl, hscan⟩

/-- A name under assembly comes from the last run, as far as that is checked. -/
theorem scan_lastRun {name : List UInt8} {front : List Mem} {lfn : Lfn}
    (h : scanEntries name front Lfn.start = .more lfn) (hok : lfn.ok = true) :
    IsChecked lfn.checksum (lastRun front) ∧
      ∃ before, front = before ++ lastRun front := by
  induction front using List.reverseRecOn generalizing lfn with
  | nil =>
      cases h
      cases hok
  | append_singleton front e ih =>
      obtain ⟨lfn₀, hfront, hscan⟩ := scanEntries_concat h
      obtain ⟨hlfn, rfl⟩ := scanEntry_more hscan hok
      obtain ⟨hpos, hle, hsum, hkind⟩ := Lfn.piece_ok hok
      rw [hsum, lastRun_concat, if_pos hlfn]
      rcases hkind with hflag | ⟨hflag, hok₀, hown⟩
      · rw [if_pos hflag]
        refine ⟨⟨⟨e, [], rfl, hflag, by simp⟩, ?_⟩, front, rfl⟩
        intro x hx
        rw [List.mem_singleton.mp hx]
        exact ⟨hlfn, rfl, hpos, hle⟩
      · rw [if_neg (by simp [hflag])]
        obtain ⟨⟨⟨first, rest, hrun, hfirst, hrest⟩, hpieces⟩, before, hsplit⟩ :=
          ih hfront hok₀
        rw [← hown] at hpieces
        refine ⟨⟨⟨first, rest ++ [e], by rw [hrun]; rfl, hfirst, ?_⟩, ?_⟩,
          before, by rw [← List.append_assoc, ← hsplit]⟩
        · intro x hx
          rcases List.mem_append.mp hx with hx | hx
          · exact hrest x hx
          · rw [List.mem_singleton.mp hx]
            exact hflag
        · intro x hx
          rcases List.mem_append.mp hx with hx | hx
          · exact hpieces x hx
          · rw [List.mem_singleton.mp hx]
            exact ⟨hlfn, rfl, hpos, hle⟩

/-- Ordinals that count down to one are known from their place. -/
theorem CountsDown.seq {run : List Mem} (h : CountsDown run) {k : Nat}
    (hk : k < run.length) : pieceSeq run[k] = run.length - k := by
  have hsteps := h.steps
  have hends := h.ends
  clear h
  induction run generalizing k with
  | nil => cases hk
  | cons a run ih =>
      cases run with
      | nil =>
          cases Nat.lt_one_iff.mp hk
          exact hends a rfl
      | cons b run =>
          obtain ⟨hab, hrun⟩ := List.isChain_cons_cons.mp hsteps
          have hseq : ∀ j (hj : j < (b :: run).length),
              pieceSeq (b :: run)[j] = (b :: run).length - j :=
            fun j hj => ih hj hrun (by simpa using hends)
          cases k with
          | zero =>
              have hb := hseq 0 (by simp)
              simp only [List.getElem_cons_zero, List.length_cons] at hab hb ⊢
              omega
          | succ k =>
              have hb := hseq k (by simpa using hk)
              simp only [List.getElem_cons_succ, List.length_cons] at hb ⊢
              omega

/-- A checked run that counts down is a complete set. -/
theorem CountsDown.isRun {run : List Mem} {sum : UInt8} (h : CountsDown run)
    (hchecked : IsChecked sum run) : IsRun run.length sum run := by
  obtain ⟨⟨first, rest, hrun, hfirst, hrest⟩, hpieces⟩ := hchecked
  have hpos : 0 < run.length := by
    rw [hrun]
    exact Nat.succ_pos _
  have hle := (hpieces run[0] (List.getElem_mem hpos)).2.2.2
  rw [h.seq hpos] at hle
  refine ⟨hpos, hle, Nat.le_refl _, fun k hk => ?_⟩
  obtain ⟨hlfn, hsum, -, -⟩ := hpieces run[k] (List.getElem_mem hk)
  have hseq := h.seq hk
  have hflag : run[k] 0 &&& 0x40 ≠ 0 ↔ pieceSeq run[k] = run.length := by
    subst hrun
    cases k with
    | zero => exact iff_of_true hfirst hseq
    | succ k =>
        refine iff_of_false ?_ (by omega)
        rw [List.getElem_cons_succ, not_not]
        exact hrest _ (List.getElem_mem _)
  have hord := eq_ordinal (h.bits _ (List.getElem_mem hk)) hflag
  refine ⟨hord.trans ?_, hlfn.attr, hsum⟩
  exact congrArg _ hseq

theorem ordinal_lt {n seq : Nat} (hle : seq ≤ 20) : ordinal n seq < 0x80 := by
  have hall : ∀ flag : Bool, ∀ seq < 21,
      UInt8.ofNat (if flag then seq + 0x40 else seq) < 0x80 := by
    decide
  have h := hall (decide (seq = n)) seq (by omega)
  simpa [ordinal] using h

/-- A complete set is the last run of the entries that end with it. -/
theorem IsRun.lastRun_eq {sum : UInt8} {pieces : List Mem}
    (h : IsRun pieces.length sum pieces) (before : List Mem) :
    lastRun (before ++ pieces) = pieces := by
  have hle := h.le
  have hflag : ∀ k (hk : k < pieces.length),
      pieces[k] 0 &&& 0x40 ≠ 0 ↔ k = 0 := by
    intro k hk
    rw [((h.piece k hk).seq (by omega) (by omega)).2]
    omega
  have hlfn := fun e he => h.lfn_of_mem (e := e) he
  cases pieces with
  | nil => exact absurd h.pos (by decide)
  | cons first rest =>
      refine lastRun_append hlfn ((hflag 0 (Nat.succ_pos _)).mpr rfl) ?_ before
      intro e he
      obtain ⟨k, hk, rfl⟩ := List.getElem_of_mem he
      have hnot := (hflag (k + 1) (Nat.succ_lt_succ hk)).not.mpr (by omega)
      simpa using hnot

/-- A complete set counts down, if it is in ASCII. -/
theorem IsRun.countsDown {sum : UInt8} {pieces : List Mem}
    (h : IsRun pieces.length sum pieces)
    (hascii : ∀ u ∈ runUnits pieces, u < 0x80) : CountsDown pieces := by
  have hle := h.le
  have hseq : ∀ k (hk : k < pieces.length),
      pieceSeq pieces[k] = pieces.length - k := fun k hk =>
    ((h.piece k hk).seq (by omega) (by omega)).1
  refine ⟨?_, ?_, ?_, hascii⟩
  · rw [List.isChain_iff_getElem]
    intro k hk
    rw [hseq k (by omega), hseq (k + 1) (by omega)]
    omega
  · intro e he
    rw [List.getLast?_eq_getElem?] at he
    obtain ⟨hk, rfl⟩ := List.getElem?_eq_some_iff.mp he
    rw [hseq _ hk]
    have hpos := h.pos
    omega
  · intro e he
    obtain ⟨k, hk, rfl⟩ := List.getElem_of_mem he
    rw [(h.piece k hk).ordinal]
    exact ordinal_lt (by omega)

/-- The characters up to the terminator come from the units up to it. -/
theorem takeWhile_lfnChar (units : List Nat) :
    (units.map lfnChar).takeWhile (· ≠ 0) =
      (units.takeWhile fun u => u ≠ 0 ∧ u ≠ 0xFFFF).map lfnChar := by
  have hall : ∀ u < 0x80, lfnChar u ≠ 0 ↔ u ≠ 0 := by decide
  have hzero : ∀ u, lfnChar u ≠ 0 ↔ u ≠ 0 ∧ u ≠ 0xFFFF := by
    intro u
    by_cases hascii : u < 0x80
    · rw [hall u hascii]
      omega
    · by_cases hpad : u = 0xFFFF
      · simp [lfnChar, hpad]
      · rw [lfnChar, if_neg hpad, if_neg hascii]
        exact iff_of_true (by decide) ⟨by omega, hpad⟩
  rw [List.takeWhile_map]
  congr 2
  funext u
  exact decide_eq_decide.mpr (hzero u)

/-- Characters and units spell the same exactly in ASCII. -/
theorem upper_lfnChar_iff {u : Nat} (hpad : u ≠ 0xFFFF) :
    (upper (lfnChar u)).toNat = upperUnit u ↔ u < 0x80 := by
  have hall : ∀ u < 0x80, (upper (lfnChar u)).toNat = upperUnit u := by
    decide
  refine ⟨fun heq => ?_, hall u⟩
  by_contra hwide
  rw [lfnChar, if_neg hpad, if_neg hwide, upperUnit, if_neg (by omega)] at heq
  have hmark : (upper 0x3F).toNat = 0x3F := by decide
  omega

theorem map_upper_runUnits_iff (pieces : List Mem) :
    ((runUnits pieces).map fun u => (upper (lfnChar u)).toNat) =
        (runUnits pieces).map upperUnit ↔
      ∀ u ∈ runUnits pieces, u < 0x80 := by
  rw [List.map_inj_left]
  refine forall₂_congr fun u hu => upper_lfnChar_iff ?_
  have htest := List.mem_takeWhile_imp hu
  simp only [ne_eq, decide_eq_true_eq] at htest
  exact htest.2

/-- A complete set spells its units, those past ASCII as `?`. -/
theorem IsRun.name_eq {sum : UInt8} {pieces : List Mem}
    (h : IsRun pieces.length sum pieces) (lfn : Lfn) :
    (pieces.foldl Lfn.piece lfn).name = (runUnits pieces).map lfnChar := by
  have hne : pieces ≠ [] := by
    rintro rfl
    exact absurd h.pos (by decide)
  rw [(h.assembled hne lfn).name_eq rfl, flatMap_pieceChars, takeWhile_lfnChar,
    runUnits]

/-- The entry behind a complete set matches the name that the set spells. -/
theorem IsRun.scanEntry_found {name : List UInt8} {pieces : List Mem}
    {e : Mem} (h : IsRun pieces.length (shortNameChecksum e) pieces)
    (lfn : Lfn) (he : IsShort e)
    (hname : name.map upper =
      (runUnits pieces).map fun u => upper (lfnChar u)) :
    scanEntry name (pieces.foldl Lfn.piece lfn) e =
      .found (Entry.ofShort e) := by
  have hne : pieces ≠ [] := by
    rintro rfl
    exact absurd h.pos (by decide)
  have hassembled := h.assembled hne lfn
  have hlong : (pieces.foldl Lfn.piece lfn).name.map upper =
      name.map upper := by
    rw [h.name_eq, List.map_map, hname]
    rfl
  rw [scanEntry_short he, if_pos (Or.inl
    ⟨hassembled.ok, hassembled.checksum.symm, hlong⟩)]

/-- A match through a long name is one through a complete set that spells it,
exactly when the run in front of the entry counts down and is in ASCII. -/
theorem lookup_trusts_complete_iff {v : Fat32} {dirCluster : Nat}
    {name : List UInt8} {out entry : Entry} {io io' : Outcomes}
    (h : lookup v dirCluster name out io = (true, entry, io')) :
    (∃ front e, MatchAt v dirCluster name front e entry) ∧
    ∀ front e, MatchAt v dirCluster name front e entry →
      (formatShortName e).map upper ≠ name.map upper →
        (CompleteRun front e name ↔ CountsDown (lastRun front)) := by
  refine ⟨exists_matchAt (lookup_true h), ?_⟩
  rintro front e ⟨-, lfn, hfront, hfound⟩ hshort
  obtain ⟨hok, hsum, hname⟩ := scanEntry_found_long hfound hshort
  obtain ⟨hchecked, before, hsplit⟩ := scan_lastRun hfront hok
  rw [← hsum] at hchecked
  have hunits : ∀ {before pieces : List Mem}, front = before ++ pieces →
      IsRun pieces.length (shortNameChecksum e) pieces →
      name.map (fun c => (upper c).toNat) =
        (runUnits pieces).map fun u => (upper (lfnChar u)).toNat := by
    intro before pieces hsplit hrun
    rw [hsplit] at hfront
    obtain ⟨lfn₀, -, rfl⟩ := hrun.scan_eq hfront
    rw [hrun.name_eq] at hname
    have hupper := congrArg (List.map UInt8.toNat) hname
    simpa [Function.comp_def] using hupper.symm
  constructor
  · rintro ⟨n, before, pieces, hsplit, rfl, hrun, hspells⟩
    have hlast : lastRun front = pieces := by rw [hsplit, hrun.lastRun_eq]
    rw [hunits hsplit hrun, map_upper_runUnits_iff] at hspells
    rw [hlast]
    exact hrun.countsDown hspells
  · intro hdown
    have hrun := hdown.isRun hchecked
    refine ⟨_, before, lastRun front, hsplit, rfl, hrun, ?_⟩
    rw [hunits hsplit hrun, map_upper_runUnits_iff]
    exact hdown.ascii

theorem sampleRoot_directory :
    directory sample 2 = (List.range 16).map sampleRoot := by
  rfl

/-- The file of the sample is found behind its one piece, and that one piece
is a complete set. -/
theorem lookup_trusts_complete_iff_notes :
    lookup sample 2 notes (rootEntry sample) allOk =
      (true, Entry.ofShort (sampleRoot 1), allOk) ∧
    MatchAt sample 2 notes [sampleRoot 0] (sampleRoot 1)
      (Entry.ofShort (sampleRoot 1)) ∧
    CompleteRun [sampleRoot 0] (sampleRoot 1) notes := by
  have hscan : (scanEntries notes (directory sample 2) Lfn.start).result =
        some (Entry.ofShort (sampleRoot 1)) ∧
      IsLfn (sampleRoot 0) ∧ IsShort (sampleRoot 1) ∧
      ((Lfn.start.piece (sampleRoot 0)).ok = true ∧
        shortNameChecksum (sampleRoot 1) =
          (Lfn.start.piece (sampleRoot 0)).checksum ∧
        (Lfn.start.piece (sampleRoot 0)).name.map upper = notes.map upper) ∧
      (formatShortName (sampleRoot 1)).map upper ≠ notes.map upper := by
    decide +kernel
  have hdown : sampleRoot 0 0 &&& 0x40 ≠ 0 ∧ pieceSeq (sampleRoot 0) = 1 ∧
      sampleRoot 0 0 < 0x80 ∧ ∀ u ∈ runUnits [sampleRoot 0], u < 0x80 := by
    decide +kernel
  obtain ⟨hresult, hlfn, hentry, hlong, hshort⟩ := hscan
  obtain ⟨hflag, hseq, hbit, hascii⟩ := hdown
  have hlookup : lookup sample 2 notes (rootEntry sample) allOk =
      (true, Entry.ofShort (sampleRoot 1), allOk) := by
    rw [lookup_allOk, hresult]
  have hmatch : MatchAt sample 2 notes [sampleRoot 0] (sampleRoot 1)
      (Entry.ofShort (sampleRoot 1)) := by
    refine ⟨⟨_, sampleRoot_directory⟩, Lfn.start.piece (sampleRoot 0), ?_, ?_⟩
    · rw [scanEntries_cons, scanEntry_lfn hlfn]
      rfl
    · rw [scanEntry_short hentry, if_pos (Or.inl hlong)]
  have hlast : lastRun [sampleRoot 0] = [sampleRoot 0] := by
    exact lastRun_append (by simpa using hlfn) hflag (by simp) []
  refine ⟨hlookup, hmatch,
    ((lookup_trusts_complete_iff hlookup).2 _ _ hmatch hshort).mpr ?_⟩
  rw [hlast]
  exact ⟨.singleton _, by simpa using hseq, by simpa using hbit, hascii⟩

/-- ASCII characters as UTF-16 units. -/
def layWide (chars : List UInt8) : List UInt8 := chars.flatMap fun c => [c, 0]

/-- A long-name entry with thirteen ASCII characters. -/
def layPiece (ord sum : UInt8) (chars : List UInt8) : List UInt8 :=
  ord :: layWide (chars.take 5) ++ [0x0F, 0x00, sum] ++
    layWide ((chars.drop 5).take 6) ++ [0x00, 0x00] ++
    layWide (chars.drop 11)

/-- Thirteen letters from `A` on. -/
def letters : List UInt8 := (List.range 13).map fun i => UInt8.ofNat (0x41 + i)

/-- The sample disk with a root directory whose only long name has lost the
second of three pieces. -/
def gapDisk : DiskReader.Config :=
  { sampleDisk with
    disk := fun lba i =>
      layout (if lba = 2 then
        [(0, layPiece 0x43 0xF7 letters), (32, layPiece 0x01 0xF7 letters),
          (64, layShort [0x4E, 0x4F, 0x54, 0x45, 0x53, 0x7E, 0x31, 0x20,
            0x54, 0x45, 0x58] 0x20 3 [0x58, 0x02, 0x00, 0x00])]
        else sampleSector lba) i }

def gapVolume : Fat32 :=
  { disk := gapDisk
    metadata := sample.metadata
    mounted := ⟨allOk, by decide +kernel⟩ }

/-- Entry `i` of the root directory with the gap. -/
def gapEntry (i : Nat) : Mem := fun k => gapDisk.sectorAt 2 (32 * i + k)

/-- What the bytes of the directory with the gap come to. -/
theorem gap_bytes :
    (IsLfn (gapEntry 0) ∧ IsLfn (gapEntry 1) ∧ IsShort (gapEntry 2)) ∧
    gapEntry 0 0 ≠ ordinal 2 2 ∧ gapEntry 1 0 ≠ ordinal 1 1 ∧
    (formatShortName (gapEntry 2)).map upper ≠ letters.map upper ∧
    ((Lfn.start.piece (gapEntry 0)).piece (gapEntry 1)).ok = true ∧
    shortNameChecksum (gapEntry 2) =
      ((Lfn.start.piece (gapEntry 0)).piece (gapEntry 1)).checksum ∧
    ((Lfn.start.piece (gapEntry 0)).piece (gapEntry 1)).name = letters := by
  decide +kernel

theorem gap_not_complete :
    ¬ CompleteRun [gapEntry 0, gapEntry 1] (gapEntry 2) letters := by
  obtain ⟨-, hfirst, hsecond, -⟩ := gap_bytes
  rintro ⟨n, before, pieces, hsplit, rfl, hrun, -⟩
  have hpiece := hrun.piece 0 hrun.pos
  match before, hsplit with
  | [], hsplit =>
      cases hsplit
      exact hfirst hpiece.ordinal
  | [_], hsplit =>
      cases hsplit
      exact hsecond hpiece.ordinal
  | [_, _], hsplit =>
      cases hsplit
      exact absurd hrun.pos (by decide)

/-- A run without its second piece passes, under the first thirteen letters of
a name that has more than 26. -/
theorem lookup_trusts_gap :
    ∃ front e entry,
      lookup gapVolume 2 letters (rootEntry gapVolume) allOk =
        (true, entry, allOk) ∧
      MatchAt gapVolume 2 letters front e entry ∧
      (formatShortName e).map upper ≠ letters.map upper ∧
      ¬ CompleteRun front e letters := by
  obtain ⟨⟨hlast, hfirst, hshort⟩, -, -, hname, hok, hsum, hlong⟩ := gap_bytes
  have hsplit : directory gapVolume 2 = [gapEntry 0, gapEntry 1] ++
      gapEntry 2 :: (List.range' 3 13).map gapEntry := by
    rfl
  have hpieces : scanEntries letters [gapEntry 0, gapEntry 1] Lfn.start =
      .more ((Lfn.start.piece (gapEntry 0)).piece (gapEntry 1)) := by
    rw [scanEntries_cons, scanEntry_lfn hlast, Scan.andThen, scanEntries_cons,
      scanEntry_lfn hfirst]
    rfl
  have hmatch : scanEntry letters
      ((Lfn.start.piece (gapEntry 0)).piece (gapEntry 1)) (gapEntry 2) =
        .found (Entry.ofShort (gapEntry 2)) := by
    rw [scanEntry_short hshort, if_pos (Or.inl ⟨hok, hsum, by rw [hlong]⟩)]
  refine ⟨[gapEntry 0, gapEntry 1], gapEntry 2, Entry.ofShort (gapEntry 2),
    ?_, ⟨⟨_, hsplit⟩, _, hpieces, hmatch⟩, hname, gap_not_complete⟩
  rw [lookup_allOk, hsplit, scanEntries_append, hpieces, Scan.andThen,
    scanEntries_cons, hmatch]
  rfl

/-- An entry behind a complete set is returned exactly when the scan arrives
there and the name is the units of the set with those past ASCII read as `?`;
so a name without `?` skips an entry whose long name has such a unit. -/
theorem lookup_skips_wide_iff {v : Fat32} {dirCluster : Nat}
    {name : List UInt8} {before pieces back : List Mem} {e : Mem}
    (hsplit : directory v dirCluster = before ++ pieces ++ e :: back)
    (he : IsShort e)
    (hrun : IsRun pieces.length (shortNameChecksum e) pieces)
    (hwide : ∃ u ∈ runUnits pieces, 0x80 ≤ u ∧ u ≤ 0xFFFE)
    (hshort : (formatShortName e).map upper ≠ name.map upper) :
    ((∀ out entry io io', lookup v dirCluster name out io = (true, entry, io') →
        ∀ front e', MatchAt v dirCluster name front e' entry →
          front.length ≠ (before ++ pieces).length) ↔
      ((∃ lfn, scanEntries name before Lfn.start = .more lfn) →
        name.map upper ≠ (runUnits pieces).map fun u => upper (lfnChar u))) ∧
    (0x3F ∉ name →
      name.map upper ≠ (runUnits pieces).map fun u => upper (lfnChar u)) := by
  refine ⟨⟨?_, ?_⟩, ?_⟩
  · rintro hskips ⟨lfn₀, hbefore⟩ hname
    have hscan : scanEntries name (before ++ pieces) Lfn.start =
        .more (pieces.foldl Lfn.piece lfn₀) := by
      rw [scanEntries_append, hbefore, Scan.andThen,
        scanEntries_lfn fun x hx => hrun.lfn_of_mem hx]
    have hmatch := hrun.scanEntry_found lfn₀ he hname
    refine hskips (Entry.ofShort e) _ allOk allOk ?_ (before ++ pieces) e
      ⟨⟨back, hsplit⟩, _, hscan, hmatch⟩ rfl
    rw [lookup_allOk, hsplit, scanEntries_append, hscan, Scan.andThen,
      scanEntries_cons, hmatch]
    rfl
  · rintro hname out entry io io' - front e' ⟨⟨back', hsplit'⟩, lfn, hfront,
      hfound⟩ hlen
    obtain ⟨rfl, hsame⟩ :=
      List.append_inj (hsplit.symm.trans hsplit') hlen.symm
    obtain ⟨rfl, -⟩ := List.cons.inj hsame
    obtain ⟨lfn₀, hbefore, rfl⟩ := hrun.scan_eq hfront
    obtain ⟨-, -, hlong⟩ := scanEntry_found_long hfound hshort
    rw [hrun.name_eq, List.map_map] at hlong
    exact hname ⟨lfn₀, hbefore⟩ hlong.symm
  · intro hquestion hname
    obtain ⟨u, hu, hlo, hhi⟩ := hwide
    have hmark : 0x3F ∈ (runUnits pieces).map fun u => upper (lfnChar u) := by
      refine List.mem_map.mpr ⟨u, hu, ?_⟩
      rw [lfnChar, if_neg (by omega), if_neg (by omega)]
      decide
    rw [← hname] at hmark
    obtain ⟨c, hc, hupper⟩ := List.mem_map.mp hmark
    exact hquestion (eq_of_upper hupper (by decide) ▸ hc)

/-- The sample disk with a root directory of two files: one has the letter `é`
as its long name, the other is called `A`. -/
def wideDisk : DiskReader.Config :=
  { sampleDisk with
    disk := fun lba i =>
      layout (if lba = 2 then
        [(0, [0x41, 0xE9, 0x00, 0x00, 0x00, 0xFF, 0xFF, 0xFF, 0xFF, 0xFF, 0xFF,
            0x0F, 0x00, 0xF7, 0xFF, 0xFF, 0xFF, 0xFF, 0xFF, 0xFF, 0xFF, 0xFF,
            0xFF, 0xFF, 0xFF, 0xFF, 0x00, 0x00, 0xFF, 0xFF, 0xFF, 0xFF]),
          (32, layShort [0x4E, 0x4F, 0x54, 0x45, 0x53, 0x7E, 0x31, 0x20,
            0x54, 0x45, 0x58] 0x20 3 [0x58, 0x02, 0x00, 0x00]),
          (64, layShort (0x41 :: List.replicate 10 0x20) 0x20 6 [3, 0, 0, 0])]
        else sampleSector lba) i }

def wideVolume : Fat32 :=
  { disk := wideDisk
    metadata := sample.metadata
    mounted := ⟨allOk, by decide +kernel⟩ }

/-- Entry `i` of the root directory with the accent. -/
def wideEntry (i : Nat) : Mem := fun k => wideDisk.sectorAt 2 (32 * i + k)

/-- What the bytes of the directory with the accent come to. -/
theorem wide_bytes :
    (IsLfn (wideEntry 0) ∧ IsShort (wideEntry 1)) ∧
    (wideEntry 0 0 = ordinal 1 1 ∧ wideEntry 0 11 = kAttrLfn ∧
      wideEntry 0 13 = shortNameChecksum (wideEntry 1)) ∧
    (0xE9 ∈ runUnits [wideEntry 0] ∧
      formatShortName (wideEntry 1) = [0x4E, 0x4F, 0x54, 0x45, 0x53, 0x7E,
        0x31, 0x2E, 0x54, 0x45, 0x58]) ∧
    ((Lfn.start.piece (wideEntry 0)).ok = true ∧
      shortNameChecksum (wideEntry 1) =
        (Lfn.start.piece (wideEntry 0)).checksum ∧
      (Lfn.start.piece (wideEntry 0)).name = [0x3F]) ∧
    (scanEntries [0x61] (directory wideVolume 2) Lfn.start).result =
      some (Entry.ofShort (wideEntry 2)) := by
  decide +kernel

theorem wide_directory : directory wideVolume 2 =
    [] ++ [wideEntry 0] ++ wideEntry 1 :: (List.range' 2 14).map wideEntry := by
  rfl

theorem wide_run :
    IsRun 1 (shortNameChecksum (wideEntry 1)) [wideEntry 0] := by
  obtain ⟨-, ⟨hordinal, hattr, hsum⟩, -⟩ := wide_bytes
  exact .singleton (by decide) (by decide) ⟨hordinal, hattr, hsum⟩

/-- The name `a` skips the accent and finds the file behind it. -/
theorem lookup_skips_wide_iff_sample :
    lookup wideVolume 2 [0x61] (rootEntry wideVolume) allOk =
      (true, Entry.ofShort (wideEntry 2), allOk) ∧
    (∀ out entry io io',
      lookup wideVolume 2 [0x61] out io = (true, entry, io') →
        ∀ front e, MatchAt wideVolume 2 [0x61] front e entry →
          front.length ≠ 1) := by
  obtain ⟨⟨-, hentry⟩, -, ⟨hunit, hshort⟩, -, hscan⟩ := wide_bytes
  have hlookup : lookup wideVolume 2 [0x61] (rootEntry wideVolume) allOk =
      (true, Entry.ofShort (wideEntry 2), allOk) := by
    rw [lookup_allOk, hscan]
  have hother : (formatShortName (wideEntry 1)).map upper ≠
      [(0x61 : UInt8)].map upper := by
    rw [hshort]
    decide
  have hiff := lookup_skips_wide_iff wide_directory hentry wide_run
    ⟨0xE9, hunit, by decide⟩ hother
  exact ⟨hlookup, hiff.1.mpr fun _ => hiff.2 (by decide)⟩

/-- The name `?` finds the file called `é`. -/
theorem lookup_matches_wide :
    ∃ pieces e back,
      directory wideVolume 2 = [] ++ pieces ++ e :: back ∧
      IsRun pieces.length (shortNameChecksum e) pieces ∧
      (∃ u ∈ runUnits pieces, 0x80 ≤ u ∧ u ≤ 0xFFFE) ∧
      (formatShortName e).map upper ≠ [(0x3F : UInt8)].map upper ∧
      lookup wideVolume 2 [0x3F] (rootEntry wideVolume) allOk =
        (true, Entry.ofShort e, allOk) ∧
      MatchAt wideVolume 2 [0x3F] pieces e (Entry.ofShort e) := by
  obtain ⟨⟨hlfn, hentry⟩, -, ⟨hunit, hshort⟩, ⟨hok, hsum, hname⟩, -⟩ :=
    wide_bytes
  have hpiece : scanEntries [0x3F] [wideEntry 0] Lfn.start =
      .more (Lfn.start.piece (wideEntry 0)) := by
    rw [scanEntries_cons, scanEntry_lfn hlfn]
    rfl
  have hmatch : scanEntry [0x3F] (Lfn.start.piece (wideEntry 0))
      (wideEntry 1) = .found (Entry.ofShort (wideEntry 1)) := by
    rw [scanEntry_short hentry, if_pos (Or.inl ⟨hok, hsum, by rw [hname]⟩)]
  refine ⟨[wideEntry 0], wideEntry 1, _, wide_directory, wide_run,
    ⟨0xE9, hunit, by decide⟩, by rw [hshort]; decide, ?_,
    ⟨⟨_, wide_directory⟩, _, hpiece, hmatch⟩⟩
  rw [lookup_allOk, wide_directory, List.nil_append, scanEntries_append,
    hpiece, Scan.andThen, scanEntries_cons, hmatch]
  rfl

end Fat32

end IntroOs
