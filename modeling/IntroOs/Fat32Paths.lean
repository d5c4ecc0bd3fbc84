/-
Paths as their components.  The pointer loops of `find` split a path at its
slashes and drop what is empty, so that `find` is a descent from the root, one
`lookup` for every component, and a name matters to `lookup` only up to ASCII
case.
-/
import IntroOs.Fat32LongNames
import Mathlib.Data.List.Forall2
import Mathlib.Data.List.TakeWhile

namespace IntroOs

open ByteMem

namespace Fat32

/-- The non-empty stretches of a path between slashes. -/
def components (path : List UInt8) : List (List UInt8) :=
  (path.splitOnP (· = slash)).filter (· ≠ [])

theorem components_slash (p : List UInt8) :
    components (slash :: p) = components p := by
  have h := @List.splitOnP_append_cons _ (fun c => decide (c = slash)) [] p
    slash (by simp)
  rw [List.nil_append] at h
  simp [components, h]

theorem components_dropWhile (p : List UInt8) :
    components (p.dropWhile (· = slash)) = components p := by
  induction p with
  | nil => rfl
  | cons c p ih =>
      by_cases hc : c = slash
      · subst hc
        rw [List.dropWhile_cons_of_pos (by simp), components_slash, ih]
      · rw [List.dropWhile_cons_of_neg (by simpa using hc)]

/-- A component ends at a slash or with the path. -/
theorem components_append {name rest : List UInt8}
    (hname : ∀ c ∈ name, c ≠ slash) (hne : name ≠ [])
    (hrest : ∀ c ∈ rest.head?, c = slash) :
    components (name ++ rest) = name :: components rest := by
  have hsingle : name.splitOnP (fun c => decide (c = slash)) = [name] :=
    List.splitOnP_eq_singleton (by simpa using hname)
  cases rest with
  | nil =>
      rw [List.append_nil, components, hsingle]
      simp [components, hne]
  | cons c rest =>
      have hc := hrest c rfl
      subst hc
      rw [components_slash, components,
        List.splitOnP_append_cons name rest (by simp), hsingle]
      simp [components, hne]

/-- The first component is what the inner loop of `find` takes. -/
theorem components_cons {p : List UInt8}
    (hne : p.dropWhile (· = slash) ≠ []) :
    components p = (p.dropWhile (· = slash)).takeWhile (· ≠ slash) ::
      components ((p.dropWhile (· = slash)).dropWhile (· ≠ slash)) := by
  obtain ⟨c, q, hp, hc⟩ := head_not_slash hne
  rw [← components_dropWhile p, hp]
  conv_lhs =>
    rw [← List.takeWhile_append_dropWhile (p := (· ≠ slash)) (l := c :: q)]
  apply components_append
  · intro x hx
    simpa using List.mem_takeWhile_imp hx
  · rw [List.takeWhile_cons_of_pos (by simpa using hc)]
    exact List.cons_ne_nil _ _
  · intro x hx
    have hstop := List.head?_dropWhile_not (· ≠ slash) (c :: q)
    rw [Option.mem_def.mp hx] at hstop
    simpa using hstop

/-- What `lookup` finds on a disk that never fails. -/
def lookupEntry (v : Fat32) (dirCluster : Nat) (name : List UInt8) :
    Option Entry :=
  (scanEntries name (directory v dirCluster) Lfn.start).result

/-- The descent of `find` from `cur` along a list of components. -/
def descend (v : Fat32) : Entry → List (List UInt8) → Option Entry
  | cur, [] => some cur
  | cur, name :: names =>
      if cur.dir = false ∨ name.length > kMaxNameLen then none
      else
        match lookupEntry v (dirCluster v cur) name with
        | none => none
        | some entry => descend v entry names

/-- The descent under any outcomes of the disk reads: `lookup` folded over the
components. -/
def descendWith (v : Fat32) :
    Entry → List (List UInt8) → Outcomes → Option Entry × Outcomes
  | cur, [], io => (some cur, io)
  | cur, name :: names, io =>
      if cur.dir = false ∨ name.length > kMaxNameLen then (none, io)
      else
        match lookup v (dirCluster v cur) name cur io with
        | (false, _, io) => (none, io)
        | (true, entry, io) => descendWith v entry names io

theorem findLoop_eq {v : Fat32} {fuel : Nat} {p : List UInt8}
    (cur : Entry) (io : Outcomes) (hfuel : p.length < fuel) :
    findLoop v fuel p cur io =
      some (descendWith v cur (components p) io) := by
  induction fuel generalizing p cur io with
  | zero => omega
  | succ fuel ih =>
      simp only [findLoop]
      split
      · rename_i hend
        rw [← components_dropWhile, hend]
        rfl
      rename_i hend
      have hless := length_dropWhile_lt hend
      rw [components_cons hend, descendWith]
      generalize (p.dropWhile (· = slash)).takeWhile (· ≠ slash) = name
      by_cases hdir : cur.dir = false
      · rw [if_pos hdir, if_pos (Or.inl hdir)]
      by_cases hlen : name.length > kMaxNameLen
      · rw [if_neg hdir, if_pos hlen, if_pos (Or.inr hlen)]
      rw [if_neg hdir, if_neg hlen, if_neg (by tauto)]
      cases lookup v (dirCluster v cur) name cur io with
      | mk ok r =>
      cases ok with
      | false => rfl
      | true => exact ih r.1 r.2 (by omega)

/-- `find` is the descent from the root along the components of the path. -/
theorem find_eq (v : Fat32) (path : CString) (io : Outcomes) :
    find v (some path) io =
      match descendWith v (rootEntry v) (components path.bytes) io with
      | (none, io) => some (File.invalid, io)
      | (some entry, io) => some (fileOf v entry, io) := by
  simp only [find, findLoop_eq (rootEntry v) io
    (Nat.lt_succ_self path.bytes.length)]
  cases descendWith v (rootEntry v) (components path.bytes) io with
  | mk r io => cases r <;> rfl

theorem descendWith_allOk (v : Fat32) (cur : Entry)
    (names : List (List UInt8)) :
    descendWith v cur names allOk = (descend v cur names, allOk) := by
  induction names generalizing cur with
  | nil => rfl
  | cons name names ih =>
      rw [descendWith, descend]
      split
      · rfl
      · rw [lookup_allOk, ← lookupEntry]
        cases lookupEntry v (dirCluster v cur) name with
        | none => rfl
        | some entry => exact ih entry

/-- `find` on a disk that never fails is the descent from the root along the
components of the path. -/
theorem find_allOk (v : Fat32) (path : CString) :
    find v (some path) allOk =
      match descend v (rootEntry v) (components path.bytes) with
      | none => some (File.invalid, allOk)
      | some entry => some (fileOf v entry, allOk) := by
  rw [find_eq, descendWith_allOk]
  cases descend v (rootEntry v) (components path.bytes) <;> rfl

section Case

variable {v : Fat32} {a b : List UInt8}

theorem scanEntry_congr (h : a.map upper = b.map upper) (lfn : Lfn)
    (e : Mem) : scanEntry a lfn e = scanEntry b lfn e := by
  have hequal : ∀ l, equalNocase l a = equalNocase l b := by
    intro l
    rw [Bool.eq_iff_iff, equalNocase_iff, equalNocase_iff, h]
  simp only [scanEntry, shortEntry, hequal]

theorem scanEntries_congr (h : a.map upper = b.map upper) (l : List Mem)
    (lfn : Lfn) : scanEntries a l lfn = scanEntries b l lfn := by
  induction l generalizing lfn with
  | nil => rfl
  | cons e l ih => simp only [scanEntries, scanEntry_congr h, ih]

theorem scanSectors_congr (h : a.map upper = b.map upper) (n lba : Nat)
    (lfn : Lfn) (io : Outcomes) :
    scanSectors v a n lba lfn io = scanSectors v b n lba lfn io := by
  induction n generalizing lba lfn io with
  | zero => rfl
  | succ n ih => simp only [scanSectors, scanEntries_congr h, ih]

theorem scanChain_congr (h : a.map upper = b.map upper) (hops cluster : Nat)
    (lfn : Lfn) (io : Outcomes) :
    scanChain v a hops cluster lfn io = scanChain v b hops cluster lfn io := by
  induction hops generalizing cluster lfn io with
  | zero => rfl
  | succ hops ih => simp only [scanChain, scanSectors_congr h, ih]

/-- Names that differ only in ASCII case are the same to `lookup`. -/
theorem lookup_congr (h : a.map upper = b.map upper) (dirCluster : Nat)
    (out : Entry) (io : Outcomes) :
    lookup v dirCluster a out io = lookup v dirCluster b out io := by
  simp only [lookup, scanChain_congr h]

theorem descendWith_congr {names names' : List (List UInt8)}
    (h : List.Forall₂ (fun a b => a.map upper = b.map upper) names names')
    (cur : Entry) (io : Outcomes) :
    descendWith v cur names io = descendWith v cur names' io := by
  induction h generalizing cur io with
  | nil => rfl
  | @cons a b names names' hname _ ih =>
      have hlen : a.length = b.length := by
        have h := congrArg List.length hname
        rwa [List.length_map, List.length_map] at h
      simp only [descendWith, lookup_congr hname, hlen, ih]

end Case

/-- `find` sees nothing of a path but its components up to ASCII case: it is
`lookup` folded over them from the root, and so two paths that agree on them
lead to the same handle. -/
theorem find_components (v : Fat32) (io : Outcomes) :
    (∀ path : CString, find v (some path) io =
      match descendWith v (rootEntry v) (components path.bytes) io with
      | (none, io) => some (File.invalid, io)
      | (some entry, io) => some (fileOf v entry, io)) ∧
    ∀ p q : CString,
      List.Forall₂ (fun a b => a.map upper = b.map upper)
        (components p.bytes) (components q.bytes) →
      find v (some p) io = find v (some q) io := by
  refine ⟨fun path => find_eq v path io, ?_⟩
  intro p q h
  rw [find_eq, find_eq, descendWith_congr h]

/-- `//NOTES.text/`, another path of `/nOtes.TEXT`. -/
def otherNotesPath : CString :=
  { bytes := [0x2F, 0x2F, 0x4E, 0x4F, 0x54, 0x45, 0x53, 0x2E, 0x74, 0x65, 0x78,
      0x74, 0x2F]
    noNul := by decide }

theorem find_components_notes :
    List.Forall₂ (fun a b => a.map upper = b.map upper)
        (components notesPath.bytes) (components otherNotesPath.bytes) ∧
      find sample (some notesPath) allOk =
        find sample (some otherNotesPath) allOk := by
  have hsame : List.Forall₂ (fun a b => a.map upper = b.map upper)
      (components notesPath.bytes) (components otherNotesPath.bytes) := by
    decide +kernel
  exact ⟨hsame, (find_components sample allOk).2 _ _ hsame⟩

end Fat32

end IntroOs
