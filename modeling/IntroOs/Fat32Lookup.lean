/-
Directories as sequences of items: deleted entries, labels, leftover
long-name pieces, short entries and complete sets of a long name with its
short entry.  However the items are spread over sectors and clusters,
`lookup` finds the first whose long or short name matches.
-/
import IntroOs.Fat32LongNames
import IntroOs.LinkChain
import Mathlib.Order.Interval.Finset.Nat

namespace IntroOs

open ByteMem LinkChain

namespace Fat32

/-- The clusters of a chain that ends, in order. -/
def ClusterChain (v : Fat32) : Nat → List Nat → Prop :=
  Chain (fun c => v.metadata.validCluster c = true) (fatLink v)

theorem ClusterChain.length_le {v : Fat32} {c : Nat} {clusters : List Nat}
    (h : ClusterChain v c clusters) :
    clusters.length ≤ v.metadata.clusterCount := by
  have hcard := h.length_le_card
    (s := Finset.Ico 2 (v.metadata.clusterCount + 2))
    (fun x hx => Finset.mem_Ico.mpr (validCluster_iff.mp hx))
  simpa using hcard

theorem visited_of_chain {v : Fat32} {c hops : Nat} {clusters : List Nat}
    (h : ClusterChain v c clusters) (hle : clusters.length ≤ hops) :
    visited v hops c = clusters.flatMap (clusterEntries v) := by
  induction h generalizing hops with
  | stop hstop =>
      cases hops with
      | zero => rfl
      | succ hops => rw [visited, if_neg hstop]; rfl
  | link hvalid rest ih =>
      cases hops with
      | zero => cases hle
      | succ hops =>
          rw [visited, if_pos hvalid, List.flatMap_cons,
            ih (Nat.le_of_succ_le_succ hle)]

/-- The hop bound never cuts a chain that ends. -/
theorem directory_of_chain {v : Fat32} {c : Nat} {clusters : List Nat}
    (h : ClusterChain v c clusters) :
    directory v c = clusters.flatMap (clusterEntries v) :=
  visited_of_chain h (Nat.le_succ_of_le h.length_le)

/-- The long-name encoding of a name: its characters, a terminator and padding
unless the last piece is full. -/
def encodedUnits (name : List UInt8) : List Nat :=
  name.map UInt8.toNat ++
    if name.length % 13 = 0 then []
    else 0 :: List.replicate (12 - name.length % 13) 0xFFFF

/-- The names the encoding is for. -/
structure IsLongName (name : List UInt8) : Prop where
  ascii : ∀ c ∈ name, c ≠ 0 ∧ c < 0x80
  pos : 1 ≤ name.length
  le : name.length ≤ kMaxNameLen

/-- A complete set of pieces of a long name, in the order of the disk. -/
structure IsLfnSet (name : List UInt8) (sum : UInt8)
    (pieces : List Mem) : Prop where
  longName : IsLongName name
  count : pieces.length = (name.length + 12) / 13
  run : IsRun pieces.length sum pieces
  units : pieces.reverse.flatMap pieceUnits = encodedUnits name

/-- A stretch of directory entries. -/
inductive Item where
  | deleted (e : Mem)
  | label (e : Mem)
  | orphan (e : Mem)
  | short (e : Mem)
  | long (name : List UInt8) (pieces : List Mem) (e : Mem)

namespace Item

def entries : Item → List Mem
  | deleted e => [e]
  | label e => [e]
  | orphan e => [e]
  | short e => [e]
  | long _ pieces e => pieces ++ [e]

/-- The entries are of the kind the item says. -/
def WellFormed : Item → Prop
  | deleted e => e 0 = 0xE5
  | label e => e 0 ≠ 0x00 ∧ e 0 ≠ 0xE5 ∧ e 11 ≠ kAttrLfn ∧
      e 11 &&& kAttrVolumeId ≠ 0
  | orphan e => IsLfn e
  | short e => IsShort e
  | long name pieces e =>
      IsShort e ∧ IsLfnSet name (shortNameChecksum e) pieces

/-- The entry of an item that has `name` as its long or short name, ignoring
ASCII case. -/
def named (name : List UInt8) : Item → Option Entry
  | short e =>
      if (formatShortName e).map upper = name.map upper then
        some (Entry.ofShort e)
      else none
  | long longName _ e =>
      if longName.map upper = name.map upper ∨
          (formatShortName e).map upper = name.map upper then
        some (Entry.ofShort e)
      else none
  | _ => none

end Item

/-- The short entry without a long name that comes next behind long-name
entries.  A set starts its own name, and a deleted entry or a label already
ends the one before. -/
def nextShort : List Item → Option Mem
  | .orphan _ :: items => nextShort items
  | .short e :: _ => some e
  | _ => none

/-- Every item is well formed, and long-name entries without their short entry
do not carry the checksum of the next one. -/
def WellFormed : List Item → Prop
  | [] => True
  | item :: items => item.WellFormed ∧
      (∀ e, item = .orphan e → ∀ s, nextShort items = some s →
        shortNameChecksum s ≠ e 13) ∧
      WellFormed items

/-- The entries behind the items: none, or an end mark and anything. -/
def IsEnd : List Mem → Prop
  | [] => True
  | e :: _ => e 0 = 0x00

/-- A name under assembly is not that of the next short entry. -/
def Stale (lfn : Lfn) (items : List Item) : Prop :=
  lfn.ok = true → ∀ s, nextShort items = some s →
    shortNameChecksum s ≠ lfn.checksum

theorem stale_of_not_ok {lfn : Lfn} {items : List Item}
    (h : lfn.ok = false) : Stale lfn items := by
  intro hok
  rw [h] at hok
  cases hok

theorem lfnChar_toNat {c : UInt8} (h : c < 0x80) : lfnChar c.toNat = c := by
  have hlt : c.toNat < 0x80 := h
  rw [lfnChar, if_neg (by omega), if_pos hlt, UInt8.ofNat_toNat]

/-- The characters of an encoded name up to the terminator are the name. -/
theorem takeWhile_encodedUnits {name : List UInt8} (h : IsLongName name) :
    ((encodedUnits name).map lfnChar).takeWhile (· ≠ 0) = name := by
  have hname : (name.map UInt8.toNat).map lfnChar = name := by
    rw [List.map_map]
    conv_rhs => rw [← List.map_id name]
    apply List.map_congr_left
    intro c hc
    exact lfnChar_toNat (h.ascii c hc).2
  rw [encodedUnits, List.map_append, hname, List.takeWhile_append_of_pos]
  · split
    · simp
    · simp [lfnChar]
  · intro c hc
    simpa using (h.ascii c hc).1

/-- A complete set leaves its own name under assembly. -/
theorem IsLfnSet.assembled {name : List UInt8} {sum : UInt8}
    {pieces : List Mem} (h : IsLfnSet name sum pieces) (lfn : Lfn) :
    (pieces.foldl Lfn.piece lfn).ok = true ∧
      (pieces.foldl Lfn.piece lfn).checksum = sum ∧
      (pieces.foldl Lfn.piece lfn).name = name := by
  have hne : pieces ≠ [] := by
    have hcount := h.count
    have hpos := h.longName.pos
    intro hnil
    rw [hnil, List.length_nil] at hcount
    omega
  have hrun := h.run.assembled hne lfn
  refine ⟨hrun.ok, hrun.checksum, ?_⟩
  rw [hrun.name_eq rfl, flatMap_pieceChars, h.units,
    takeWhile_encodedUnits h.longName]

/-- One item either ends the scan at its entry, or leaves a stale name. -/
theorem scanEntries_item (name : List UInt8) {lfn : Lfn} {item : Item}
    {items : List Item} (hwf : WellFormed (item :: items))
    (hstale : Stale lfn (item :: items)) :
    (∃ entry, item.named name = some entry ∧
      scanEntries name item.entries lfn = .found entry) ∨
    (∃ lfn', item.named name = none ∧
      scanEntries name item.entries lfn = .more lfn' ∧ Stale lfn' items) := by
  obtain ⟨hitem, horphan, -⟩ := hwf
  cases item with
  | deleted e =>
      refine Or.inr ⟨{ lfn with ok := false }, rfl, ?_, stale_of_not_ok rfl⟩
      simp only [Item.WellFormed] at hitem
      simp [Item.entries, scanEntries, scanEntry, hitem]
  | label e =>
      obtain ⟨hend, hdeleted, hattr, hvolume⟩ := hitem
      refine Or.inr ⟨{ lfn with ok := false }, rfl, ?_, stale_of_not_ok rfl⟩
      simp [Item.entries, scanEntries, scanEntry, shortEntry, hend, hdeleted,
        hattr, hvolume]
  | orphan e =>
      refine Or.inr ⟨lfn.piece e, rfl, ?_, ?_⟩
      · rw [Item.entries, scanEntries, scanEntry_lfn hitem]
        rfl
      · intro hok s hs
        rw [(Lfn.piece_ok hok).2.2.1]
        exact horphan e rfl s hs
  | short e =>
      have hskip : ¬ (lfn.ok = true ∧ shortNameChecksum e = lfn.checksum ∧
          lfn.name.map upper = name.map upper) := by
        rintro ⟨hok, hsum, -⟩
        exact hstale hok e rfl hsum
      rw [Item.entries, scanEntries_cons, scanEntry_short hitem, Item.named]
      simp only [hskip, false_or]
      split
      · exact Or.inl ⟨_, rfl, rfl⟩
      · exact Or.inr ⟨_, rfl, rfl, stale_of_not_ok rfl⟩
  | long longName pieces e =>
      obtain ⟨hshort, hset⟩ := hitem
      obtain ⟨hok, hsum, hname⟩ := hset.assembled lfn
      rw [Item.entries, scanEntries_append,
        scanEntries_lfn (fun x hx => hset.run.lfn_of_mem hx), Scan.andThen,
        scanEntries_cons, scanEntry_short hshort, Item.named]
      simp only [hok, hsum, hname, true_and]
      split
      · exact Or.inl ⟨_, rfl, rfl⟩
      · exact Or.inr ⟨_, rfl, rfl, stale_of_not_ok rfl⟩

/-- A scan of well-formed items arrives at the first that has the name. -/
theorem scanEntries_items {name : List UInt8} {items : List Item}
    {rest : List Mem} {lfn : Lfn} (hwf : WellFormed items)
    (hrest : IsEnd rest) (hstale : Stale lfn items) :
    (scanEntries name (items.flatMap Item.entries ++ rest) lfn).result =
      items.findSome? (Item.named name) := by
  induction items generalizing lfn with
  | nil =>
      cases rest with
      | nil => rfl
      | cons e rest =>
          simp only [IsEnd] at hrest
          simp [scanEntries, scanEntry, hrest, Scan.result]
  | cons item items ih =>
      rw [List.flatMap_cons, List.append_assoc, scanEntries_append,
        List.findSome?_cons]
      rcases scanEntries_item name hwf hstale with
        ⟨entry, hnamed, hscan⟩ | ⟨lfn', hnamed, hscan, hstale'⟩
      · rw [hnamed, hscan]
        rfl
      · rw [hnamed, hscan]
        exact ih hwf.2.2 hstale'

/-- `lookup` finds exactly the first entry with the name, and leaves `out`
alone when there is none. -/
theorem lookup_first {v : Fat32} {dirCluster : Nat} {clusters : List Nat}
    {items : List Item} {rest : List Mem}
    (hchain : ClusterChain v dirCluster clusters)
    (hentries : clusters.flatMap (clusterEntries v) =
      items.flatMap Item.entries ++ rest)
    (hwf : WellFormed items) (hrest : IsEnd rest) (name : List UInt8)
    (out : Entry) :
    lookup v dirCluster name out allOk =
      match items.findSome? (Item.named name) with
      | some entry => (true, entry, allOk)
      | none => (false, out, allOk) := by
  have hscan : (scanEntries name (directory v dirCluster) Lfn.start).result =
      items.findSome? (Item.named name) := by
    rw [directory_of_chain hchain, hentries,
      scanEntries_items hwf hrest (stale_of_not_ok rfl)]
  cases hfound : items.findSome? (Item.named name) with
  | none => rw [lookup_allOk, hscan, hfound]
  | some entry => rw [lookup_allOk, hscan, hfound]

/-- The root directory of the sample volume. -/
def sampleRootItems : List Item :=
  [.long notes [sampleRoot 0] (sampleRoot 1), .short (sampleRoot 2)]

/-- The bytes of the sample volume that a scan of its root comes across. -/
theorem sampleRoot_bytes :
    sample.metadata.validCluster (fatLink sample 2) = false ∧
    (∀ c ∈ notes, c ≠ 0 ∧ c < 0x80) ∧
    sampleRoot 0 0 = ordinal 1 1 ∧ sampleRoot 0 11 = kAttrLfn ∧
    sampleRoot 0 13 = shortNameChecksum (sampleRoot 1) ∧
    pieceUnits (sampleRoot 0) = encodedUnits notes ∧
    IsShort (sampleRoot 1) ∧ IsShort (sampleRoot 2) ∧
    sampleRoot 3 0 = 0x00 := by
  decide +kernel

theorem sampleRoot_chain : ClusterChain sample 2 [2] := by
  obtain ⟨hend, -⟩ := sampleRoot_bytes
  exact .link rfl (.stop (by rw [hend]; exact Bool.false_ne_true))

theorem sampleRoot_entries : [2].flatMap (clusterEntries sample) =
    sampleRootItems.flatMap Item.entries ++
      (List.range' 3 13).map sampleRoot := by
  rfl

theorem sampleRoot_isLfnSet :
    IsLfnSet notes (shortNameChecksum (sampleRoot 1)) [sampleRoot 0] := by
  obtain ⟨-, hascii, hord, hattr, hsum, hunits, -⟩ := sampleRoot_bytes
  have hpiece : IsPiece 1 (shortNameChecksum (sampleRoot 1)) 1
      (sampleRoot 0) := ⟨hord, hattr, hsum⟩
  refine ⟨⟨hascii, by decide, by decide⟩, rfl, ?_, ?_⟩
  · exact .singleton (Nat.le_refl 1) (by decide) hpiece
  · simpa using hunits

theorem sampleRoot_wellFormed : WellFormed sampleRootItems := by
  obtain ⟨-, -, -, -, -, -, hfile, hsub, -⟩ := sampleRoot_bytes
  exact ⟨⟨hfile, sampleRoot_isLfnSet⟩, (fun _ h => nomatch h), hsub,
    (fun _ h => nomatch h), trivial⟩

theorem sampleRoot_isEnd : IsEnd ((List.range' 3 13).map sampleRoot) := by
  obtain ⟨-, -, -, -, -, -, -, -, hend⟩ := sampleRoot_bytes
  exact hend

theorem lookup_first_notes :
    lookup sample 2 (notes.map upper) (rootEntry sample) allOk =
      (true, Entry.ofShort (sampleRoot 1), allOk) := by
  have hupper : notes.map upper = (notes.map upper).map upper := by decide
  have hfirst : sampleRootItems.findSome? (Item.named (notes.map upper)) =
      some (Entry.ofShort (sampleRoot 1)) := by
    rw [sampleRootItems, List.findSome?_cons, Item.named,
      if_pos (Or.inl hupper)]
  rw [lookup_first sampleRoot_chain sampleRoot_entries sampleRoot_wellFormed
    sampleRoot_isEnd, hfirst]

end Fat32

end IntroOs
