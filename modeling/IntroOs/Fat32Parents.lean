/-
Going down and up again.  Where the `..` entry of every subdirectory stores
the cluster of its parent, or 0 for the root, a step into a subdirectory and
back by `..` does not change where a path leads, although the entry that
`find` stands on is another one.
-/
import IntroOs.Fat32Tree
import IntroOs.Fat32Trust

namespace IntroOs

open ByteMem

namespace Fat32

def dotdot : List UInt8 := [0x2E, 0x2E]

/-- The directory at cluster `c` has a `..` entry for the directory at
`parent`: a scan for `..` gets as far as this entry. -/
def HasParent (v : Fat32) (c parent : Nat) : Prop :=
  ∃ front e back lfn, directory v c = front ++ e :: back ∧
    scanEntries dotdot front Lfn.start = .more lfn ∧
    IsShort e ∧ formatShortName e = dotdot ∧
    (Entry.ofShort e).dir = true ∧
    ((Entry.ofShort e).firstCluster = parent ∨
      (Entry.ofShort e).firstCluster = 0 ∧ parent = v.metadata.rootCluster)

/-- The entry `e` of the directory at cluster `c`, found under `name`, is a
proper subdirectory. -/
structure IsSubdirectory (v : Fat32) (c : Nat) (name : List UInt8) (e : Mem)
    (entry : Entry) : Prop where
  found : ∃ front, MatchAt v c name front e entry
  dir : entry.dir = true
  proper : isDot (formatShortName e) = false

/-- Every subdirectory below the root leads back to its parent. -/
def Parented (v : Fat32) : Prop :=
  ∀ names cur, descend v (rootEntry v) names = some cur → cur.dir = true →
    ∀ name e sub, IsSubdirectory v (dirCluster v cur) name e sub →
      HasParent v sub.firstCluster (dirCluster v cur)

section Paths

variable {v : Fat32}

theorem components_append_slash (p q : List UInt8) :
    components (p ++ slash :: q) = components p ++ components q := by
  rw [components, List.splitOnP_append_cons p q (by simp), List.filter_append]
  rfl

theorem components_name {name : List UInt8} (hne : name ≠ [])
    (hslash : slash ∉ name) : components name = [name] := by
  have h := @components_append name [] (fun c hc h => hslash (h ▸ hc)) hne
    (fun c hc => nomatch hc)
  rwa [List.append_nil] at h

theorem descend_append (cur : Entry) (names names' : List (List UInt8)) :
    descend v cur (names ++ names') =
      (descend v cur names).bind fun entry => descend v entry names' := by
  induction names generalizing cur with
  | nil => rfl
  | cons name names ih =>
      rw [List.cons_append, descend, descend]
      split
      · rfl
      · cases lookupEntry v (dirCluster v cur) name with
        | none => rfl
        | some entry => exact ih entry

theorem descend_cons {cur entry : Entry} {name : List UInt8}
    (hdir : cur.dir = true) (hlen : name.length ≤ kMaxNameLen)
    (h : lookupEntry v (dirCluster v cur) name = some entry)
    (names : List (List UInt8)) :
    descend v cur (name :: names) = descend v entry names := by
  rw [descend, if_neg (by simp [hdir]; omega), h]

/-- The handle of a directory depends on its cluster only. -/
theorem fileOf_dir {a b : Entry} (ha : a.dir = true) (hb : b.dir = true)
    (h : dirCluster v a = dirCluster v b) : fileOf v a = fileOf v b := by
  simp only [dirCluster] at h
  simp only [fileOf, ha, hb, true_and, if_true, h]

/-- From two entries for one directory, every path leads to the same place. -/
theorem descend_dir {a b : Entry} (ha : a.dir = true) (hb : b.dir = true)
    (h : dirCluster v a = dirCluster v b) (names : List (List UInt8)) :
    (descend v a names).map (fileOf v) =
      (descend v b names).map (fileOf v) := by
  -- beyond the first step not even the entries differ
  cases names with
  | nil => exact congrArg some (fileOf_dir ha hb h)
  | cons name names => rw [descend, descend, ha, hb, h]

theorem find_eq_map (v : Fat32) (path : CString) :
    find v (some path) allOk =
      some (((descend v (rootEntry v) (components path.bytes)).map
        (fileOf v)).getD File.invalid, allOk) := by
  rw [find_allOk]
  cases descend v (rootEntry v) (components path.bytes) <;> rfl

theorem MatchAt.lookupEntry {c : Nat} {name : List UInt8}
    {front : List Mem} {e : Mem} {entry : Entry}
    (h : MatchAt v c name front e entry) :
    lookupEntry v c name = some entry := by
  obtain ⟨⟨back, hsplit⟩, lfn, hfront, hfound⟩ := h
  rw [Fat32.lookupEntry, hsplit, scanEntries_append, hfront, Scan.andThen,
    scanEntries_cons, hfound]
  rfl

theorem found_of_lookupEntry {c : Nat} {name : List UInt8} {entry : Entry}
    (h : lookupEntry v c name = some entry) :
    scanEntries name (directory v c) Lfn.start = .found entry := by
  rw [Fat32.lookupEntry] at h
  cases hscan : scanEntries name (directory v c) Lfn.start with
  | more lfn => rw [hscan] at h; cases h
  | stop => rw [hscan] at h; cases h
  | found found =>
      rw [hscan] at h
      cases h
      rfl

/-- A match is at a short entry of the directory. -/
theorem MatchAt.short {c : Nat} {name : List UInt8} {front : List Mem}
    {e : Mem} {entry : Entry} (h : MatchAt v c name front e entry) :
    e ∈ directory v c ∧ IsShort e ∧ entry = Entry.ofShort e := by
  obtain ⟨⟨back, hsplit⟩, lfn, -, hfound⟩ := h
  refine ⟨?_, scanEntry_found hfound, eq_ofShort_of_found hfound⟩
  rw [hsplit]
  exact List.mem_append_right front List.mem_cons_self

/-- `..` finds an entry for the parent. -/
theorem HasParent.lookupEntry {c parent : Nat} (h : HasParent v c parent)
    (hparent : parent ≠ 0) :
    ∃ up, Fat32.lookupEntry v c dotdot = some up ∧ up.dir = true ∧
      dirCluster v up = parent := by
  obtain ⟨front, e, back, lfn, hsplit, hfront, hshort, hname, hdir, hstored⟩ :=
    h
  refine ⟨Entry.ofShort e, ?_, hdir, ?_⟩
  · rw [Fat32.lookupEntry, hsplit, scanEntries_append, hfront, Scan.andThen,
      scanEntries_cons, scanEntry_short hshort,
      if_pos (Or.inr (by rw [hname]))]
    rfl
  · rw [dirCluster]
    rcases hstored with hstored | ⟨hzero, hroot⟩
    · rw [hstored, if_neg hparent]
    · rw [if_pos hzero, hroot]

/-- A directory with an entry in it has a cluster. -/
theorem HasParent.valid {c parent : Nat} (h : HasParent v c parent) :
    v.metadata.validCluster c = true := by
  obtain ⟨front, e, back, lfn, hsplit, -⟩ := h
  by_contra hinvalid
  rw [directory, visited, if_neg hinvalid] at hsplit
  exact absurd hsplit.symm (by simp)

theorem dirCluster_ne_zero (v : Fat32) (entry : Entry) :
    dirCluster v entry ≠ 0 := by
  have hroot := validCluster_iff.mp (geometryOf v).root_valid
  rw [dirCluster]
  split <;> omega

theorem fileOf_firstCluster {entry : Entry} (h : entry.dir = true) :
    (fileOf v entry).firstCluster = dirCluster v entry := by
  simp [fileOf, h, dirCluster]

end Paths

/-- Into a subdirectory and back by `..` is no step at all: `p/d/../q` leads
where `p/q` leads. -/
theorem find_up_down {v : Fat32} (hparented : Parented v) {p : CString}
    {f : File} (hp : find v (some p) allOk = some (f, allOk))
    (hvalid : f.valid = true) (hdir : f.dir = true)
    {d : List UInt8} {e : Mem} {sub : Entry} (hslash : slash ∉ d)
    (hne : d ≠ []) (hlen : d.length ≤ kMaxNameLen)
    (hsub : IsSubdirectory v f.firstCluster d e sub)
    {q upDown direct : CString}
    (hupDown : upDown.bytes =
      p.bytes ++ slash :: (d ++ slash :: (dotdot ++ slash :: q.bytes)))
    (hdirect : direct.bytes = p.bytes ++ slash :: q.bytes) :
    find v (some upDown) allOk = find v (some direct) allOk := by
  cases hcur : descend v (rootEntry v) (components p.bytes) with
  | none =>
      rw [find_eq_map, hcur] at hp
      cases hp
      cases hvalid
  | some cur =>
      have hf : f = fileOf v cur := by
        rw [find_eq_map, hcur] at hp
        cases hp
        rfl
      subst hf
      have hcurDir : cur.dir = true := hdir
      rw [fileOf_firstCluster hcurDir] at hsub
      have hparent := hparented _ cur hcur hcurDir d e sub hsub
      obtain ⟨front, hmatch⟩ := hsub.found
      obtain ⟨up, hup, hupDir, hupCluster⟩ :=
        hparent.lookupEntry (dirCluster_ne_zero v cur)
      -- `sub` has entries, so that its cluster is not read as the root's
      have hcluster : dirCluster v sub = sub.firstCluster := by
        have hc := validCluster_iff.mp hparent.valid
        rw [dirCluster, if_neg (by omega)]
      rw [← hcluster] at hup
      -- `..` leads to another entry than `cur`, for the same directory
      rw [find_eq_map, find_eq_map, hupDown, hdirect,
        components_append_slash, components_append_slash,
        components_append_slash, components_append_slash,
        components_name hne hslash,
        components_name (by decide) (by decide : slash ∉ dotdot),
        descend_append, descend_append, hcur, Option.bind_some,
        Option.bind_some, List.singleton_append, List.singleton_append,
        descend_cons hcurDir hlen hmatch.lookupEntry,
        descend_cons hsub.dir (by decide) hup,
        descend_dir hupDir hcurDir hupCluster]

section Sample

theorem sampleSub_directory :
    directory sample 4 = (List.range 16).map sampleSub := by
  rfl

/-- The directories of the sample volume: the only subdirectory of the root is
at cluster 4, and that one has none but `.` and `..`. -/
theorem sampleDirs_bytes :
    (∀ i < 16, IsShort (sampleRoot i) → (Entry.ofShort (sampleRoot i)).dir →
      (Entry.ofShort (sampleRoot i)).firstCluster = 4 ∧
      isDot (formatShortName (sampleRoot i)) = false) ∧
    (∀ i < 16, IsShort (sampleSub i) → (Entry.ofShort (sampleSub i)).dir →
      isDot (formatShortName (sampleSub i)) = true ∧
      dirCluster sample (Entry.ofShort (sampleSub i)) ∈ [2, 4]) := by
  decide +kernel

/-- The first two entries of the subdirectory, and the entry it is found by. -/
theorem sampleSub_bytes :
    (IsShort (sampleSub 0) ∧
      (formatShortName (sampleSub 0)).map upper ≠ dotdot.map upper) ∧
    (IsShort (sampleSub 1) ∧ formatShortName (sampleSub 1) = dotdot ∧
      (Entry.ofShort (sampleSub 1)).dir = true ∧
      (Entry.ofShort (sampleSub 1)).firstCluster = 0) ∧
    (lookupEntry sample 2 [0x73, 0x75, 0x62] =
      some (Entry.ofShort (sampleRoot 2)) ∧
      (Entry.ofShort (sampleRoot 2)).dir = true) := by
  decide +kernel

theorem sampleSub_hasParent : HasParent sample 4 2 := by
  obtain ⟨⟨hself, hother⟩, ⟨hup, hname, hdir, hzero⟩, -⟩ := sampleSub_bytes
  refine ⟨[sampleSub 0], sampleSub 1, (List.range' 2 14).map sampleSub,
    { Lfn.start with ok := false }, rfl, ?_, hup, hname, hdir,
    Or.inr ⟨hzero, rfl⟩⟩
  rw [scanEntries_cons, scanEntry_short hself, if_neg (by simp [hother,
    Lfn.start])]
  rfl

theorem sample_match {c : Nat} {name : List UInt8} {front : List Mem}
    {e : Mem} {entry : Entry} (hc : c ∈ [2, 4])
    (h : MatchAt sample c name front e entry) (hdir : entry.dir = true) :
    c = 2 ∧ entry.firstCluster = 4 ∧ isDot (formatShortName e) = false ∨
      c = 4 ∧ isDot (formatShortName e) = true ∧
        dirCluster sample entry ∈ [2, 4] := by
  obtain ⟨hroot, hsub⟩ := sampleDirs_bytes
  obtain ⟨hmem, hshort, rfl⟩ := h.short
  have hcases : c = 2 ∨ c = 4 := by simpa using hc
  rcases hcases with rfl | rfl
  · rw [sampleRoot_directory] at hmem
    obtain ⟨i, hi, rfl⟩ := List.mem_map.mp hmem
    exact Or.inl ⟨rfl, hroot i (List.mem_range.mp hi) hshort hdir⟩
  · rw [sampleSub_directory] at hmem
    obtain ⟨i, hi, rfl⟩ := List.mem_map.mp hmem
    exact Or.inr ⟨rfl, hsub i (List.mem_range.mp hi) hshort hdir⟩

/-- A path stays within the two directories. -/
theorem sample_dirs {names : List (List UInt8)} {cur entry : Entry}
    (hcur : cur.dir = true → dirCluster sample cur ∈ [2, 4])
    (h : descend sample cur names = some entry) (hdir : entry.dir = true) :
    dirCluster sample entry ∈ [2, 4] := by
  induction names generalizing cur with
  | nil =>
      cases h
      exact hcur hdir
  | cons name names ih =>
      rw [descend] at h
      split at h
      · cases h
      rename_i hok
      split at h
      · cases h
      rename_i next hnext
      refine ih ?_ h
      intro hnextDir
      have hhere := hcur (by simpa using fun h => hok (Or.inl h))
      obtain ⟨front, e, hmatch⟩ := exists_matchAt (found_of_lookupEntry hnext)
      rcases sample_match hhere hmatch hnextDir with
        ⟨-, hfour, -⟩ | ⟨-, -, hin⟩
      · rw [dirCluster, hfour]
        decide
      · exact hin

theorem sample_parented : Parented sample := by
  intro names cur hcur hdir name e sub hsub
  have hhere := sample_dirs (fun _ => by decide) hcur hdir
  obtain ⟨front, hmatch⟩ := hsub.found
  rcases sample_match hhere hmatch hsub.dir with
    ⟨htwo, hfour, -⟩ | ⟨-, hdot, -⟩
  · rw [htwo, hfour]
    exact sampleSub_hasParent
  · rw [hsub.proper] at hdot
    cases hdot

/-- Through `SUB` and back to the notes. -/
theorem find_up_down_sample :
    find sample (some ⟨[0x2F, 0x73, 0x75, 0x62, 0x2F, 0x2E, 0x2E, 0x2F, 0x6E,
      0x6F, 0x74, 0x65, 0x73, 0x2E, 0x74, 0x65, 0x78, 0x74], by decide⟩) allOk =
    find sample (some ⟨[0x2F, 0x6E, 0x6F, 0x74, 0x65, 0x73, 0x2E, 0x74, 0x65,
      0x78, 0x74], by decide⟩) allOk := by
  obtain ⟨-, -, hlookup, hdir⟩ := sampleSub_bytes
  obtain ⟨front, e, hmatch⟩ := exists_matchAt (found_of_lookupEntry hlookup)
  have hproper : isDot (formatShortName e) = false := by
    rcases sample_match (by decide) hmatch hdir with ⟨-, -, h⟩ | ⟨h, -⟩
    · exact h
    · cases h
  exact find_up_down sample_parented (p := ⟨[], by decide⟩)
    (find_eq_map sample ⟨[], by decide⟩) rfl rfl (d := [0x73, 0x75, 0x62])
    (by decide) (by decide) (by decide) ⟨⟨front, hmatch⟩, hdir, hproper⟩
    (q := ⟨[0x6E, 0x6F, 0x74, 0x65, 0x73, 0x2E, 0x74, 0x65, 0x78, 0x74],
      by decide⟩) rfl rfl

end Sample

end Fat32

end IntroOs
