/-
`lookup` down to its buffers.  The sector, the long name under assembly and
the rendered short name are arrays of their declared sizes, an access outside
of them is a fault, the hop counter is 32 bits wide, and every step leaves an
event behind.  The computation never faults, and it is the one that `lookup`
describes.
-/
import IntroOs.ByteArrays
import IntroOs.Fat32Scan

namespace IntroOs

open ByteMem

namespace Fat32

open DiskReader

/-- `sizeof(lfn)`. -/
def kLfnSize : Nat := kMaxNameLen + 14

/-- `sizeof(shortname)`. -/
def kShortNameSize : Nat := 13

/-- The directory entry at `off`, `e` in the source. -/
def entryAt (sector : Mem) (off : Nat) : Mem := fun k => sector (off + k)

/-- `short_name_checksum(e)`. -/
def checkedChecksum (sector : Mem) (off : Nat) : Option UInt8 :=
  (List.range 11).foldlM
    (fun sum i => (fetch kSector sector (off + i)).map (checksumRound sum)) 0

/-- The loops of `format_short_name`: bytes `i` on of the name, at most
`count` of them, go to `out[n++]`.  Only byte 0 can stand for another. -/
def checkedField (sector : Mem) (off : Nat) :
    Nat → Nat → Mem → Nat → Option (Mem × Nat)
  | 0, _, out, n => some (out, n)
  | count + 1, i, out, n => do
      let c ← fetch kSector sector (off + i)
      if c = 0x20 then some (out, n)
      else
        let out ← put kShortNameSize out n
          (if i = 0 ∧ c = 0x05 then 0xE5 else c)
        checkedField sector off count (i + 1) out (n + 1)

/-- `format_short_name(e, shortname)`. -/
def checkedFormat (sector : Mem) (off : Nat) (out : Mem) :
    Option (Mem × Nat) := do
  let (out, n) ← checkedField sector off 8 0 out 0
  let c ← fetch kSector sector (off + 8)
  if c ≠ 0x20 then
    let out ← put kShortNameSize out n 0x2E
    checkedField sector off 3 8 out (n + 1)
  else some (out, n)

/-- The loop of `equal_nocase` from index `i` on. -/
def checkedCompare (size : Nat) (a : Mem) : Nat → List UInt8 → Option Bool
  | _, [] => some true
  | i, c :: rest => do
      let x ← fetch size a i
      if upper x ≠ upper c then some false
      else checkedCompare size a (i + 1) rest

/-- `equal_nocase(a, alen, name, name_len)` with `a` an array. -/
def checkedEqual (size : Nat) (a : Mem) (alen : Nat) (name : List UInt8) :
    Option Bool :=
  if alen ≠ name.length then some false else checkedCompare size a 0 name

/-- `while (n < lfn_len && lfn[n] != '\0') n++`, with `left` indices to go. -/
def checkedLength (lfn : Mem) : Nat → Nat → Option Nat
  | 0, n => some n
  | left + 1, n => do
      let c ← fetch kLfnSize lfn n
      if c = 0 then some n else checkedLength lfn left (n + 1)

/-- The character loop of the long-name branch, from `lfn[at]` on. -/
def checkedChars (sector : Mem) (off : Nat) :
    List Nat → Mem → Nat → Option Mem
  | [], lfn, _ => some lfn
  | o :: rest, lfn, pos => do
      let ch ← fetchLe kSector sector (off + o) 2
      let lfn ← put kLfnSize lfn pos (lfnChar ch)
      checkedChars sector off rest lfn (pos + 1)

/-- The long-name branch. -/
def checkedPiece (lfn : Lfn) (sector : Mem) (off : Nat) : Option Lfn := do
  let ord ← fetch kSector sector off
  let seq := (ord &&& 0x3F).toNat
  if seq = 0 ∨ seq * 13 > kMaxNameLen + 13 then some { lfn with ok := false }
  else if ord &&& 0x40 ≠ 0 then
    let sum ← fetch kSector sector (off + 13)
    let buf ← checkedChars sector off kOffsets (fun _ => 0) ((seq - 1) * 13)
    some { buf := buf, len := seq * 13, ok := true, checksum := sum }
  else if lfn.ok = false then some { lfn with ok := false }
  else
    let sum ← fetch kSector sector (off + 13)
    if sum ≠ lfn.checksum then some { lfn with ok := false }
    else
      let buf ← checkedChars sector off kOffsets lfn.buf ((seq - 1) * 13)
      some { lfn with buf := buf }

/-- `have_lfn`. -/
def checkedHaveLfn (lfn : Lfn) (sector : Mem) (off : Nat) : Option Bool :=
  if lfn.ok then (checkedChecksum sector off).map (· == lfn.checksum)
  else some false

/-- Whether the assembled name matches. -/
def checkedLong (name : List UInt8) (haveLfn : Bool) (lfn : Lfn) :
    Option Bool :=
  if haveLfn then do
    let n ← checkedLength lfn.buf lfn.len 0
    checkedEqual kLfnSize lfn.buf n name
  else some false

/-- Whether a short entry matches, by its long name or by its own. -/
def checkedMatch (name : List UInt8) (haveLfn : Bool) (lfn : Lfn)
    (sector : Mem) (off : Nat) : Option Bool := do
  let long ← checkedLong name haveLfn lfn
  if long then some true
  else
    let (out, n) ← checkedFormat sector off fun _ => 0
    checkedEqual kShortNameSize out n name

/-- The fields of a match. -/
def checkedFields (sector : Mem) (off : Nat) (attr : UInt8) :
    Option Entry := do
  let hi ← fetchLe kSector sector (off + 20) 2
  let lo ← fetchLe kSector sector (off + 26) 2
  let size ← fetchLe kSector sector (off + 28) 4
  some
    { firstCluster := hi * 2 ^ 16 + lo
      size := size % 2 ^ 32
      dir := attr &&& kAttrDirectory ≠ 0
      size_lt := Nat.mod_lt size (by decide) }

/-- A short entry or a label. -/
def checkedShort (name : List UInt8) (lfn : Lfn) (sector : Mem) (off : Nat)
    (attr : UInt8) : Option Scan := do
  let haveLfn ← checkedHaveLfn lfn sector off
  if attr &&& kAttrVolumeId ≠ 0 then some (.more { lfn with ok := false })
  else
    let found ← checkedMatch name haveLfn lfn sector off
    if found then (checkedFields sector off attr).map .found
    else some (.more { lfn with ok := false })

/-- The body of the entry loop. -/
def checkedEntry (name : List UInt8) (lfn : Lfn) (sector : Mem)
    (off : Nat) : Option Scan := do
  let first ← fetch kSector sector off
  if first = 0x00 then some .stop
  else if first = 0xE5 then some (.more { lfn with ok := false })
  else
    let attr ← fetch kSector sector (off + 11)
    if attr = kAttrLfn then (checkedPiece lfn sector off).map .more
    else checkedShort name lfn sector off attr

section Entry

variable {name : List UInt8} {lfn : Lfn} {sector : Mem} {off : Nat}

theorem fetch_entry {k : Nat} (h : off + k < kSector) :
    fetch kSector sector (off + k) = some (entryAt sector off k) :=
  fetch_eq h

theorem fetch_entry_first (h : off < kSector) :
    fetch kSector sector off = some (entryAt sector off 0) :=
  fetch_eq h

theorem fetchLe_entry {k n : Nat} (h : off + k + n ≤ kSector) :
    fetchLe kSector sector (off + k) n =
      some (load (entryAt sector off) k n) := by
  rw [fetchLe_eq h, ← load_shift]
  rfl

theorem checkedChecksum_eq (hoff : off + 32 ≤ kSector) :
    checkedChecksum sector off =
      some (shortNameChecksum (entryAt sector off)) := by
  apply foldlM_fetch
  intro i hi
  have h := List.mem_range.mp hi
  omega

theorem unpadded_succ (e : Mem) (i n : Nat) :
    unpadded e i (n + 1) =
      if e i = 0x20 then [] else e i :: unpadded e (i + 1) n := by
  rw [unpadded, List.range'_succ, List.map_cons, List.takeWhile_cons]
  split <;> simp_all [unpadded]

theorem length_unpadded_le (e : Mem) (i n : Nat) :
    (unpadded e i n).length ≤ n := by
  have h := (List.takeWhile_prefix (· ≠ 0x20)
    (l := (List.range' i n).map e)).length_le
  simpa [unpadded] using h

/-- The characters a field contributes to the rendered name. -/
def rendered (e : Mem) (i n : Nat) : List UInt8 :=
  match unpadded e i n with
  | [] => []
  | c :: rest => (if i = 0 ∧ c = 0x05 then 0xE5 else c) :: rest

theorem length_rendered (e : Mem) (i n : Nat) :
    (rendered e i n).length = (unpadded e i n).length := by
  rw [rendered]
  split <;> simp_all

theorem rendered_succ_index (e : Mem) (i n : Nat) :
    rendered e (i + 1) n = unpadded e (i + 1) n := by
  rw [rendered]
  split <;> simp_all

theorem rendered_succ (e : Mem) (i n : Nat) :
    rendered e i (n + 1) =
      if e i = 0x20 then []
      else (if i = 0 ∧ e i = 0x05 then 0xE5 else e i) ::
        rendered e (i + 1) n := by
  rw [rendered_succ_index, rendered, unpadded_succ]
  by_cases h : e i = 0x20
  · rw [if_pos h, if_pos h]
  · rw [if_neg h, if_neg h]

theorem checkedField_eq {count i n : Nat} {out : Mem}
    (hoff : off + i + count ≤ kSector) (hn : n + count ≤ kShortNameSize) :
    checkedField sector off count i out n =
      some (write out n (rendered (entryAt sector off) i count),
        n + (rendered (entryAt sector off) i count).length) := by
  induction count generalizing i n out with
  | zero => simp [checkedField, rendered, unpadded, write_nil]
  | succ count ih =>
      -- the field ends at its first blank
      rw [checkedField, fetch_entry (by omega), rendered_succ,
        Option.bind_eq_bind, Option.bind_some]
      by_cases hpad : entryAt sector off i = 0x20
      · rw [if_pos hpad, if_pos hpad, write_nil]
        rfl
      · rw [if_neg hpad, if_neg hpad, put_eq (by omega),
          Option.bind_eq_bind, Option.bind_some, ih (by omega) (by omega),
          write_cons, List.length_cons]
        congr 2
        omega

theorem formatShortName_eq (e : Mem) :
    formatShortName e = rendered e 0 8 ++
      if e 8 ≠ 0x20 then 0x2E :: rendered e 8 3 else [] := by
  rw [rendered_succ_index e 7 3, formatShortName, rendered]
  simp only [true_and]
  cases unpadded e 0 8 <;> split <;> simp

/-- `format_short_name` leaves the name in the array, and its length. -/
theorem checkedFormat_eq (hoff : off + 32 ≤ kSector) (out : Mem) :
    checkedFormat sector off out =
      some (write out 0 (formatShortName (entryAt sector off)),
        (formatShortName (entryAt sector off)).length) := by
  have hbase := length_rendered (entryAt sector off) 0 8
  have hle := length_unpadded_le (entryAt sector off) 0 8
  have hsize : kShortNameSize = 13 := rfl
  rw [checkedFormat, checkedField_eq (by omega) (by decide),
    fetch_entry (by omega), formatShortName_eq]
  simp only [Option.bind_eq_bind, Option.bind_some]
  by_cases hext : entryAt sector off 8 ≠ 0x20
  · rw [if_pos hext, if_pos hext, put_eq (by omega), Option.bind_some,
      checkedField_eq (by omega) (by omega), write_cons, write_append]
    simp only [List.length_append, List.length_cons]
    congr 2
    omega
  · rw [if_neg hext, if_neg hext, List.append_nil, Nat.zero_add]

theorem checkedCompare_eq {size i : Nat} {a : Mem}
    (h : i + name.length ≤ size) :
    checkedCompare size a i name =
      some ((((List.range' i name.length).map a).zip name).all
        fun p => upper p.1 == upper p.2) := by
  induction name generalizing i with
  | nil => simp [checkedCompare]
  | cons c rest ih =>
      rw [List.length_cons] at h
      rw [checkedCompare, fetch_eq (by omega), List.length_cons,
        List.range'_succ, List.map_cons, List.zip_cons_cons, List.all_cons,
        Option.bind_eq_bind, Option.bind_some, ih (by omega)]
      by_cases hc : upper (a i) = upper c <;> simp [hc]

theorem checkedEqual_eq {size alen : Nat} {a : Mem} (h : alen ≤ size) :
    checkedEqual size a alen name =
      some (equalNocase ((List.range' 0 alen).map a) name) := by
  rw [checkedEqual, equalNocase]
  by_cases hlen : alen = name.length
  · subst hlen
    rw [if_neg (by simp), checkedCompare_eq (by omega)]
    simp
  · rw [if_pos hlen]
    simp [hlen]

theorem checkedLength_eq {buf : Mem} {left n : Nat} (h : n + left ≤ kLfnSize) :
    checkedLength buf left n =
      some (n + (((List.range' n left).map buf).takeWhile (· ≠ 0)).length) := by
  induction left generalizing n with
  | zero => rfl
  | succ left ih =>
      rw [checkedLength, fetch_eq (by omega), List.range'_succ, List.map_cons,
        List.takeWhile_cons, Option.bind_eq_bind, Option.bind_some]
      by_cases hc : buf n = 0
      · simp [hc]
      · rw [if_neg hc, ih (by omega)]
        simp only [ne_eq, hc, not_false_eq_true, decide_true, if_true,
          List.length_cons]
        congr 1
        omega

/-- The characters up to the length found are the assembled name. -/
theorem name_eq_map (lfn : Lfn) :
    (List.range' 0 lfn.name.length).map lfn.buf = lfn.name := by
  have hprefix : lfn.name <+: (List.range lfn.len).map lfn.buf :=
    List.takeWhile_prefix _
  have hle := hprefix.length_le
  rw [List.length_map, List.length_range] at hle
  conv_rhs => rw [List.prefix_iff_eq_take.mp hprefix]
  rw [← List.map_take, List.take_range, Nat.min_eq_left hle,
    List.range_eq_range']

theorem checkedChars_eq {offsets : List Nat} {buf : Mem} {pos : Nat}
    (hoffsets : ∀ o ∈ offsets, off + o + 2 ≤ kSector)
    (hpos : pos + offsets.length ≤ kLfnSize) :
    checkedChars sector off offsets buf pos =
      some (write buf pos
        (offsets.map fun o => lfnChar (le16 (entryAt sector off) o))) := by
  induction offsets generalizing buf pos with
  | nil => rw [checkedChars, List.map_nil, write_nil]
  | cons o rest ih =>
      rw [List.length_cons] at hpos
      rw [checkedChars, fetchLe_entry (hoffsets o List.mem_cons_self),
        Option.bind_eq_bind, Option.bind_some, put_eq (by omega),
        Option.bind_eq_bind, Option.bind_some,
        ih (fun o' ho' => hoffsets o' (List.mem_cons_of_mem o ho'))
          (by omega), write_cons, List.map_cons, le16]

/-- The twenty pieces a name may have fit the array, in the sector as well as
in the name. -/
theorem checkedChars_piece (hoff : off + 32 ≤ kSector) {seq : Nat}
    (hseq : ¬ (seq = 0 ∨ seq * 13 > kMaxNameLen + 13)) (buf : Mem) :
    checkedChars sector off kOffsets buf ((seq - 1) * 13) =
      some (copy buf ((seq - 1) * 13) 13
        fun i => (pieceChars (entryAt sector off)).getD i 0) := by
  have hsize : kLfnSize = kMaxNameLen + 14 := rfl
  apply checkedChars_eq
  · intro o ho
    have hmax : ∀ o ∈ kOffsets, o ≤ 30 := by decide
    have := hmax o ho
    omega
  · change (seq - 1) * 13 + 13 ≤ kLfnSize
    omega

theorem checkedPiece_eq (hoff : off + 32 ≤ kSector) :
    checkedPiece lfn sector off = some (lfn.piece (entryAt sector off)) := by
  rw [checkedPiece, fetch_entry_first (by omega), fetch_entry (by omega),
    Lfn.piece, pieceSeq]
  simp only [Option.bind_eq_bind, Option.bind_some]
  generalize (entryAt sector off 0 &&& 0x3F).toNat = seq
  -- the tests of the source in their order: an ordinal in range, a last
  -- piece, and a set under way with the same checksum
  by_cases hseq : seq = 0 ∨ seq * 13 > kMaxNameLen + 13
  · rw [if_pos hseq, if_pos hseq]
  rw [if_neg hseq, if_neg hseq, checkedChars_piece hoff hseq,
    checkedChars_piece hoff hseq]
  simp only [Option.bind_some]
  by_cases hlast : entryAt sector off 0 &&& 0x40 ≠ 0
  · rw [if_pos hlast, if_pos hlast]
  rw [if_neg hlast, if_neg hlast]
  by_cases hok : lfn.ok = false
  · rw [if_pos hok, if_pos (Or.inl hok)]
  · by_cases hsum : entryAt sector off 13 ≠ lfn.checksum
    · rw [if_neg hok, if_pos hsum, if_pos (Or.inr hsum)]
    · rw [if_neg hok, if_neg hsum, if_neg (by simp [hok, hsum])]

theorem checkedHaveLfn_eq (hoff : off + 32 ≤ kSector) :
    checkedHaveLfn lfn sector off =
      some (lfn.ok &&
        shortNameChecksum (entryAt sector off) == lfn.checksum) := by
  rw [checkedHaveLfn, checkedChecksum_eq hoff]
  cases lfn.ok <;> rfl

theorem checkedLong_eq (hlen : lfn.len ≤ kLfnSize) (haveLfn : Bool) :
    checkedLong name haveLfn lfn =
      some (haveLfn && equalNocase lfn.name name) := by
  cases haveLfn with
  | false => rfl
  | true =>
      have hname : ((List.range' 0 lfn.len).map lfn.buf).takeWhile (· ≠ 0) =
          lfn.name := by rw [Lfn.name, List.range_eq_range']
      have hle : lfn.name.length ≤ lfn.len := by
        have h := (List.takeWhile_prefix (· ≠ 0)
          (l := (List.range lfn.len).map lfn.buf)).length_le
        simpa [Lfn.name] using h
      rw [checkedLong, if_pos rfl, checkedLength_eq (by omega),
        Option.bind_eq_bind, Option.bind_some, hname, Nat.zero_add,
        checkedEqual_eq (by omega), name_eq_map, Bool.true_and]

theorem checkedMatch_eq (hoff : off + 32 ≤ kSector)
    (hlen : lfn.len ≤ kLfnSize) (haveLfn : Bool) :
    checkedMatch name haveLfn lfn sector off =
      some ((haveLfn && equalNocase lfn.name name) ||
        equalNocase (formatShortName (entryAt sector off)) name) := by
  have hsize : (formatShortName (entryAt sector off)).length ≤
      kShortNameSize := by
    have hbase := length_unpadded_le (entryAt sector off) 0 8
    have hext := length_unpadded_le (entryAt sector off) 8 3
    rw [formatShortName_eq, List.length_append, length_rendered]
    split <;> simp only [List.length_cons, List.length_nil, length_rendered,
      kShortNameSize] <;> omega
  rw [checkedMatch, checkedLong_eq hlen, checkedFormat_eq hoff]
  simp only [Option.bind_eq_bind, Option.bind_some, checkedEqual_eq hsize,
    map_write]
  cases haveLfn && equalNocase lfn.name name <;> rfl

theorem checkedFields_eq (hoff : off + 32 ≤ kSector) :
    checkedFields sector off (entryAt sector off 11) =
      some (Entry.ofShort (entryAt sector off)) := by
  have hsize : load (entryAt sector off) 28 4 % 2 ^ 32 =
      load (entryAt sector off) 28 4 := Nat.mod_eq_of_lt (load_lt _ 28 4)
  rw [checkedFields, fetchLe_entry (by omega), fetchLe_entry (by omega),
    fetchLe_entry (by omega)]
  simp only [Option.bind_eq_bind, Option.bind_some, Entry.ofShort, le16, le32,
    hsize]

theorem checkedShort_eq (hoff : off + 32 ≤ kSector)
    (hlen : lfn.len ≤ kLfnSize) :
    checkedShort name lfn sector off (entryAt sector off 11) =
      some (shortEntry name lfn (entryAt sector off)) := by
  rw [checkedShort, checkedHaveLfn_eq hoff, shortEntry]
  simp only [Option.bind_eq_bind, Option.bind_some, checkedMatch_eq hoff hlen,
    checkedFields_eq hoff, Option.map_some]
  split
  · rfl
  · split <;> rfl

/-- No access of the entry loop's body is out of range. -/
theorem checkedEntry_eq (hoff : off + 32 ≤ kSector)
    (hlen : lfn.len ≤ kLfnSize) :
    checkedEntry name lfn sector off =
      some (scanEntry name lfn (entryAt sector off)) := by
  rw [checkedEntry, fetch_entry_first (by omega), fetch_entry (by omega),
    scanEntry]
  simp only [Option.bind_eq_bind, Option.bind_some, checkedPiece_eq hoff,
    checkedShort_eq hoff hlen, Option.map_some]
  split
  · rfl
  · split
    · rfl
    · split <;> rfl

theorem piece_len_le (lfn : Lfn) (e : Mem) (hlen : lfn.len ≤ kLfnSize) :
    (lfn.piece e).len ≤ kLfnSize := by
  have hsize : kLfnSize = kMaxNameLen + 14 := rfl
  simp only [Lfn.piece]
  split
  · exact hlen
  · split
    · simp only
      omega
    · split <;> exact hlen

/-- The length of the name under assembly stays within its array. -/
theorem scanEntry_len_le {e : Mem} {lfn' : Lfn}
    (h : scanEntry name lfn e = .more lfn') (hlen : lfn.len ≤ kLfnSize) :
    lfn'.len ≤ kLfnSize := by
  simp only [scanEntry, shortEntry] at h
  split at h
  · cases h
  split at h
  · cases h
    exact hlen
  split at h
  · cases h
    exact piece_len_le lfn e hlen
  split at h
  · cases h
    exact hlen
  split at h
  · cases h
  · cases h
    exact hlen

end Entry

/-- What the driver does that can be seen from outside: start on a cluster of
a directory, ask for sectors of the data region or for one of the FAT, and
examine a directory entry. -/
inductive Event where
  | cluster (c : Nat)
  | data (lba count : Nat)
  | fat (lba : Nat)
  | entry (e : Mem)

/-- The clusters a run starts on, in order. -/
def scanned (events : List Event) : List Nat :=
  events.filterMap fun
    | .cluster c => some c
    | _ => none

/-- The entries a run examines, in order. -/
def examined (events : List Event) : List Mem :=
  events.filterMap fun
    | .entry e => some e
    | _ => none

/-- The entry loop of `lookup`, `left` rounds from `off` on. -/
def checkedEntries (name : List UInt8) (sector : Mem) :
    Nat → Nat → Lfn → Option (Scan × List Event)
  | 0, _, lfn => some (.more lfn, [])
  | left + 1, off, lfn => do
      let r ← checkedEntry name lfn sector off
      match r with
      | .more lfn =>
          let (r, events) ← checkedEntries name sector left (off + 32) lfn
          some (r, .entry (entryAt sector off) :: events)
      | r => some (r, [.entry (entryAt sector off)])

/-- The sector loop of `lookup`, `left` rounds from sector `lba` on. -/
def checkedSectors (v : Fat32) (name : List UInt8) :
    Nat → Nat → Lfn → Outcomes → Option ((Scan × Outcomes) × List Event)
  | 0, _, lfn, io => some ((.more lfn, io), [])
  | left + 1, lba, lfn, io =>
      match v.disk.readSector lba io with
      | (none, io) => some ((.stop, io), [.data lba 1])
      | (some sector, io) => do
          let (r, events) ←
            checkedEntries name sector (kSector / 32) 0 lfn
          match r with
          | .more lfn =>
              let (r, rest) ← checkedSectors v name left (lba + 1) lfn io
              some (r, .data lba 1 :: events ++ rest)
          | r => some ((r, io), .data lba 1 :: events)

/-- The cluster loop of `lookup` with its counter, `none` also when the fuel
runs out. -/
def checkedChain (v : Fat32) (name : List UInt8) :
    Nat → Nat → Nat → Lfn → Outcomes →
      Option ((Option Entry × Outcomes) × List Event)
  | 0, _, _, _, _ => none
  | fuel + 1, hops, cluster, lfn, io =>
      if v.metadata.validCluster cluster ∧ hops ≤ v.metadata.clusterCount then
        do
          let ((r, io), events) ←
            checkedSectors v name v.metadata.sectorsPerCluster
              (v.metadata.clusterLba cluster) lfn io
          match r with
          | .stop => some ((none, io), .cluster cluster :: events)
          | .found entry => some ((some entry, io), .cluster cluster :: events)
          | .more lfn =>
              let events := .cluster cluster :: events ++
                [.fat (fatSector v cluster)]
              match fatNext v cluster io with
              | (none, io) => some ((none, io), events)
              | (some next, io) =>
                  let (r, rest) ←
                    checkedChain v name fuel ((hops + 1) % 2 ^ 32) next lfn io
                  some (r, events ++ rest)
      else some ((none, io), [])

/-- `Fat32::lookup` down to its buffers, with the events it leaves. -/
def checkedLookup (v : Fat32) (dirCluster : Nat) (name : List UInt8)
    (out : Entry) (io : Outcomes) :
    Option ((Bool × Entry × Outcomes) × List Event) := do
  let (r, events) ←
    checkedChain v name (v.metadata.clusterCount + 2) 0 dirCluster Lfn.start io
  match r with
  | (some entry, io) => some ((true, entry, io), events)
  | (none, io) => some ((false, out, io), events)

end Fat32

end IntroOs
