/-
The driver refines a tree of directories and files.  An image encodes a tree
when the chains of its FAT lead to directories whose entries are the children
and to clusters that hold the contents; `find` then resolves exactly the paths
of the tree, and `read` returns the contents.
-/
import IntroOs.Fat32Limits
import IntroOs.Fat32Lookup
import IntroOs.Fat32Paths

namespace IntroOs

open ByteMem LinkChain

namespace Fat32

/-- The names of a node in its directory. -/
structure Label where
  long : Option (List UInt8)
  short : List UInt8
deriving DecidableEq

namespace Label

def names (label : Label) : List (List UInt8) :=
  label.long.toList ++ [label.short]

/-- One of the names is `name`, ignoring ASCII case. -/
def named (label : Label) (name : List UInt8) : Bool :=
  label.names.any fun n => n.map upper = name.map upper

/-- No name of the one is a name of the other, ignoring ASCII case. -/
def Apart (a b : Label) : Prop :=
  ∀ n ∈ a.names, ∀ n' ∈ b.names, n.map upper ≠ n'.map upper

theorem named_iff {label : Label} {name : List UInt8} :
    label.named name = true ↔
      ∃ n ∈ label.names, n.map upper = name.map upper := by
  simp [named]

theorem Apart.not_named {a b : Label} {name : List UInt8} (h : Apart a b)
    (ha : a.named name = true) : b.named name = false := by
  rw [← Bool.not_eq_true]
  intro hb
  obtain ⟨n, hn, heq⟩ := named_iff.mp ha
  obtain ⟨n', hn', heq'⟩ := named_iff.mp hb
  exact h n hn n' hn' (heq.trans heq'.symm)

end Label

/-- A tree of files and directories. -/
inductive Node where
  | file (content : List UInt8)
  | dir (children : List (Label × Node))

/-- The components name a path from one node to another. -/
inductive Resolves : Node → List (List UInt8) → Node → Prop
  | here (node : Node) : Resolves node [] node
  | child {children : List (Label × Node)} {child : Label × Node}
      {name : List UInt8} {names : List (List UInt8)} {node : Node}
      (hmem : child ∈ children) (hname : child.1.named name = true)
      (hrest : Resolves child.2 names node) :
      Resolves (.dir children) (name :: names) node

/-- `.` and `..`. -/
def isDot (name : List UInt8) : Bool := name = [0x2E] ∨ name = [0x2E, 0x2E]

/-- The child a directory item stands for. -/
def Item.slot : Item → Option (Label × Entry)
  | .short e =>
      if isDot (formatShortName e) then none
      else some (⟨none, formatShortName e⟩, Entry.ofShort e)
  | .long name _ e =>
      some (⟨some name, formatShortName e⟩, Entry.ofShort e)
  | _ => none

/-- The clusters of a file or directory, up to the end-of-chain mark. -/
inductive FatChain (v : Fat32) : Nat → List Nat → Prop
  | last {c : Nat} (hlo : 2 ≤ c) (hhi : c < v.metadata.clusterCount + 2)
      (hend : kEndOfChain ≤ fatWord v c) : FatChain v c [c]
  | link {c : Nat} {l : List Nat} (hlo : 2 ≤ c)
      (hhi : c < v.metadata.clusterCount + 2)
      (rest : FatChain v (fatWord v c) l) : FatChain v c (c :: l)

/-- The clusters from `firstCluster` on hold the bytes of `content`. -/
def HoldsContent (v : Fat32) (firstCluster : Nat)
    (content : List UInt8) : Prop :=
  content = [] ∨ ∃ clusters, FatChain v firstCluster clusters ∧
    ∀ (pos : Nat) (h : pos < content.length), ∃ c,
      clusters[pos / v.metadata.clusterBytes]? = some c ∧
      content[pos] = clusterByte v c (pos % v.metadata.clusterBytes)

/-- The clusters from `firstCluster` on hold a directory with these
children. -/
def HoldsDirectory (v : Fat32) (firstCluster : Nat)
    (slots : List (Label × Entry)) : Prop :=
  ∃ clusters items rest, FatChain v firstCluster clusters ∧
    clusters.flatMap (clusterEntries v) =
      items.flatMap Item.entries ++ rest ∧
    WellFormed items ∧ IsEnd rest ∧ slots = items.filterMap Item.slot

/-- The image encodes a node at a directory entry. -/
inductive Holds (v : Fat32) : Node → Entry → Prop
  | file {content : List UInt8} {entry : Entry} (hdir : entry.dir = false)
      (hsize : entry.size = content.length)
      (hcontent : HoldsContent v entry.firstCluster content) :
      Holds v (.file content) entry
  | dir {children : List (Label × Node)} {entry : Entry}
      {slots : List (Label × Entry)} (hdir : entry.dir = true)
      (hslots : HoldsDirectory v entry.firstCluster slots)
      (hlabels : slots.map Prod.fst = children.map Prod.fst)
      (hunique : (children.map Prod.fst).Pairwise Label.Apart)
      (hsub : ∀ (i : Nat) (slot : Label × Entry) (child : Label × Node),
        slots[i]? = some slot → children[i]? = some child →
        Holds v child.2 slot.2) :
      Holds v (.dir children) entry

section Chains

variable {v : Fat32} {c : Nat} {clusters : List Nat}

theorem FatChain.clusterChain
    (hbound : v.metadata.clusterCount + 2 ≤ kEndOfChain)
    (h : FatChain v c clusters) : ClusterChain v c clusters := by
  induction h with
  | last hlo hhi hend =>
      refine .link (validCluster_iff.mpr ⟨hlo, hhi⟩) (.stop ?_)
      rw [fatLink_eq_fatWord (mul_four_lt hbound hhi), validCluster_iff]
      omega
  | link hlo hhi _ ih =>
      refine .link (validCluster_iff.mpr ⟨hlo, hhi⟩) ?_
      rw [fatLink_eq_fatWord (mul_four_lt hbound hhi)]
      exact ih

theorem FatChain.two_le (h : FatChain v c clusters) : 2 ≤ c := by
  cases h <;> assumption

/-- The chain from the second cluster on. -/
theorem chain_tail (hvalid : v.metadata.validCluster c = true) (i : Nat) :
    chain v c (i + 1) = chain v (fatLink v c) i := by
  induction i with
  | zero => rw [chain_succ (chain_zero v c), if_pos hvalid, chain_zero]
  | succ i ih =>
      cases hi : chain v (fatLink v c) i with
      | none =>
          rw [chain_succ_of_none hi, chain_succ_of_none (ih.trans hi)]
      | some c' => rw [chain_succ hi, chain_succ (ih.trans hi)]

theorem clusterAt_of_chain (h : ClusterChain v c clusters) {i c' : Nat}
    (hi : clusters[i]? = some c') : clusterAt v c i = some c' := by
  induction h generalizing i with
  | stop => cases hi
  | link hvalid _ ih =>
      cases i with
      | zero =>
          cases hi
          exact clusterAt_eq_some_iff.mpr ⟨rfl, hvalid⟩
      | succ i =>
          rw [clusterAt, chain_tail hvalid]
          exact ih hi

theorem fileByte_of_holds
    (hbound : v.metadata.clusterCount + 2 ≤ kEndOfChain) {first : Nat}
    {content : List UInt8} (h : HoldsContent v first content) {pos : Nat}
    (hpos : pos < content.length) :
    fileByte v first pos = some content[pos] := by
  rcases h with rfl | ⟨clusters, hchain, hbytes⟩
  · cases hpos
  · obtain ⟨c, hc, hbyte⟩ := hbytes pos hpos
    rw [fileByte, clusterAt_of_chain (hchain.clusterChain hbound) hc, hbyte]
    rfl

end Chains

section Directories

variable {v : Fat32} {name : List UInt8}

/-- Dots have no case. -/
theorem isDot_congr {a b : List UInt8} (h : a.map upper = b.map upper)
    (ha : isDot a = true) : isDot b = true := by
  simp only [isDot, decide_eq_true_eq] at ha ⊢
  rcases ha with rfl | rfl
  · obtain ⟨c, rfl, hc⟩ := List.map_eq_singleton_iff.mp h.symm
    rw [eq_of_upper hc (by decide)]
    exact Or.inl rfl
  · obtain ⟨c, rest, rfl, hc, hrest⟩ := List.map_eq_cons_iff.mp h.symm
    obtain ⟨c', rfl, hc'⟩ := List.map_eq_singleton_iff.mp hrest
    rw [eq_of_upper hc (by decide), eq_of_upper hc' (by decide)]
    exact Or.inr rfl

/-- Apart from the dot entries, an item is found by the names of its child. -/
theorem named_eq_slot (hname : isDot name = false) (item : Item) :
    item.named name =
      (item.slot.filter fun slot => slot.1.named name).map Prod.snd := by
  cases item with
  | deleted e => rfl
  | label e => rfl
  | orphan e => rfl
  | short e =>
      rw [Item.named, Item.slot]
      by_cases hdot : isDot (formatShortName e) = true
      · have hother : (formatShortName e).map upper ≠ name.map upper := by
          intro heq
          rw [isDot_congr heq hdot] at hname
          cases hname
        rw [if_neg hother, if_pos hdot]
        rfl
      · rw [if_neg hdot]
        simp [Label.named, Label.names, Option.filter]
  | long longName pieces e =>
      simp [Item.named, Item.slot, Label.named, Label.names, Option.filter]

/-- What `lookup` finds is the first child that has the name. -/
theorem findSome?_named (hname : isDot name = false) (items : List Item) :
    items.findSome? (Item.named name) =
      ((items.filterMap Item.slot).find? fun slot =>
        slot.1.named name).map Prod.snd := by
  induction items with
  | nil => rfl
  | cons item items ih =>
      rw [List.findSome?_cons, named_eq_slot hname]
      cases hslot : item.slot with
      | none => simpa [hslot] using ih
      | some slot =>
          rw [List.filterMap_cons_some hslot, List.find?_cons]
          cases hnamed : slot.1.named name with
          | true => simp [Option.filter, hnamed]
          | false => simpa [Option.filter, hnamed] using ih

theorem lookupEntry_of_holds
    (hbound : v.metadata.clusterCount + 2 ≤ kEndOfChain) {first : Nat}
    {slots : List (Label × Entry)} (h : HoldsDirectory v first slots)
    (hname : isDot name = false) :
    lookupEntry v first name =
      (slots.find? fun slot => slot.1.named name).map Prod.snd := by
  obtain ⟨clusters, items, rest, hchain, hentries, hwf, hrest, rfl⟩ := h
  rw [lookupEntry, directory_of_chain (hchain.clusterChain hbound), hentries,
    scanEntries_items hwf hrest (stale_of_not_ok rfl), findSome?_named hname]

/-- With names apart there is only one child to find. -/
theorem find?_of_apart {slots : List (Label × Entry)} {i : Nat}
    {slot : Label × Entry}
    (hunique : (slots.map Prod.fst).Pairwise Label.Apart)
    (hslot : slots[i]? = some slot) (hnamed : slot.1.named name = true) :
    (slots.find? fun slot => slot.1.named name) = some slot := by
  induction slots generalizing i with
  | nil => cases hslot
  | cons first slots ih =>
      rw [List.map_cons, List.pairwise_cons] at hunique
      cases i with
      | zero =>
          cases hslot
          rw [List.find?_cons, hnamed]
      | succ i =>
          rw [List.getElem?_cons_succ] at hslot
          have hmem : slot.1 ∈ slots.map Prod.fst :=
            List.mem_map_of_mem (List.mem_of_getElem? hslot)
          have hother : first.1.named name = false := by
            rw [← Bool.not_eq_true]
            intro hfirst
            rw [(hunique.1 _ hmem).not_named hfirst] at hnamed
            cases hnamed
          rw [List.find?_cons, hother]
          exact ih hunique.2 hslot

theorem length_unpadded (name11 : Mem) (i n : Nat) :
    (unpadded name11 i n).length ≤ n := by
  have h := (List.takeWhile_prefix (l := (List.range' i n).map name11)
    (· ≠ 0x20)).length_le
  simpa [unpadded] using h

theorem length_formatShortName (e : Mem) : (formatShortName e).length ≤ 12 := by
  have hbase := length_unpadded e 0 8
  have hext := length_unpadded e 8 3
  rw [formatShortName]
  generalize unpadded e 0 8 = base at *
  cases base with
  | nil =>
      simp only
      split
      · simp only [List.nil_append, List.length_cons]
        omega
      · exact Nat.zero_le 12
  | cons c rest =>
      simp only [List.length_cons] at hbase
      simp only
      split
      · simp only [List.length_append, List.length_cons]
        omega
      · simp only [List.length_cons]
        omega

theorem WellFormed.of_mem {items : List Item} (h : WellFormed items)
    {item : Item} (hitem : item ∈ items) : item.WellFormed := by
  induction items with
  | nil => cases hitem
  | cons first items ih =>
      rcases List.mem_cons.mp hitem with rfl | hitem
      · exact h.1
      · exact ih h.2.2 hitem

/-- The names of a directory are never too long for `find`. -/
theorem length_of_named {first : Nat} {slots : List (Label × Entry)}
    (h : HoldsDirectory v first slots) {slot : Label × Entry}
    (hslot : slot ∈ slots) (hnamed : slot.1.named name = true) :
    name.length ≤ kMaxNameLen := by
  obtain ⟨clusters, items, rest, -, -, hwf, -, rfl⟩ := h
  obtain ⟨item, hitem, hslot⟩ := List.mem_filterMap.mp hslot
  obtain ⟨n, hn, heq⟩ := Label.named_iff.mp hnamed
  have hlen : n.length = name.length := by
    simpa using congrArg List.length heq
  have hgood := hwf.of_mem hitem
  rw [← hlen]
  cases item with
  | deleted e => cases hslot
  | label e => cases hslot
  | orphan e => cases hslot
  | short e =>
      rw [Item.slot] at hslot
      split at hslot
      · cases hslot
      · cases hslot
        cases List.mem_singleton.mp hn
        exact Nat.le_trans (length_formatShortName e) (by decide)
  | long longName pieces e =>
      cases hslot
      rcases List.mem_cons.mp hn with rfl | hn
      · exact hgood.2.longName.le
      · cases List.mem_singleton.mp hn
        exact Nat.le_trans (length_formatShortName e) (by decide)

end Directories

section Refinement

variable {v : Fat32} {node node' : Node} {cur : Entry}
  {names : List (List UInt8)}

theorem Holds.dirCluster {children : List (Label × Node)}
    (h : Holds v (.dir children) cur) :
    dirCluster v cur = cur.firstCluster := by
  cases h with
  | dir _ hslots =>
      obtain ⟨clusters, items, rest, hchain, -⟩ := hslots
      have hfirst := hchain.two_le
      rw [Fat32.dirCluster, if_neg (by omega)]

/-- One component: the child of that name, and where the image has it. -/
theorem Holds.child {children : List (Label × Node)} {name : List UInt8}
    (hbound : v.metadata.clusterCount + 2 ≤ kEndOfChain)
    (h : Holds v (.dir children) cur) (hname : isDot name = false)
    {child : Label × Node} (hmem : child ∈ children)
    (hnamed : child.1.named name = true) :
    name.length ≤ kMaxNameLen ∧ ∃ entry,
      lookupEntry v (Fat32.dirCluster v cur) name = some entry ∧
      Holds v child.2 entry := by
  rw [h.dirCluster]
  cases h with
  | @dir _ _ slots _ hslots hlabels hunique hsub =>
      obtain ⟨i, hi⟩ := List.mem_iff_getElem?.mp hmem
      have hlabel := congrArg (fun l => l[i]?) hlabels
      simp only [List.getElem?_map, hi, Option.map_some] at hlabel
      obtain ⟨slot, hslot, hfst⟩ := Option.map_eq_some_iff.mp hlabel
      rw [← hfst] at hnamed
      rw [← hlabels] at hunique
      refine ⟨length_of_named hslots (List.mem_of_getElem? hslot) hnamed,
        slot.2, ?_, hsub i slot child hslot hi⟩
      rw [lookupEntry_of_holds hbound hslots hname,
        find?_of_apart hunique hslot hnamed]
      rfl

/-- The converse: what `lookup` finds is a child of that name. -/
theorem Holds.of_lookup {children : List (Label × Node)} {name : List UInt8}
    (hbound : v.metadata.clusterCount + 2 ≤ kEndOfChain)
    (h : Holds v (.dir children) cur) (hname : isDot name = false)
    {entry : Entry}
    (hlookup : lookupEntry v (Fat32.dirCluster v cur) name = some entry) :
    ∃ child ∈ children, child.1.named name = true ∧
      Holds v child.2 entry := by
  rw [h.dirCluster] at hlookup
  cases h with
  | @dir _ _ slots _ hslots hlabels hunique hsub =>
      rw [lookupEntry_of_holds hbound hslots hname] at hlookup
      obtain ⟨slot, hfind, rfl⟩ := Option.map_eq_some_iff.mp hlookup
      have hnamed := List.find?_some hfind
      obtain ⟨i, hi⟩ := List.mem_iff_getElem?.mp (List.mem_of_find?_eq_some hfind)
      have hlabel := congrArg (fun l => l[i]?) hlabels
      simp only [List.getElem?_map, hi, Option.map_some] at hlabel
      obtain ⟨child, hchild, hfst⟩ := Option.map_eq_some_iff.mp hlabel.symm
      refine ⟨child, List.mem_of_getElem? hchild, ?_,
        hsub i slot child hi hchild⟩
      rw [hfst]
      exact hnamed

/-- The descent of `find` arrives where the path of the tree leads. -/
theorem descend_of_resolves
    (hbound : v.metadata.clusterCount + 2 ≤ kEndOfChain)
    (hnames : ∀ name ∈ names, isDot name = false)
    (hresolves : Resolves node names node') (h : Holds v node cur) :
    ∃ entry, descend v cur names = some entry ∧ Holds v node' entry := by
  induction hresolves generalizing cur with
  | here node => exact ⟨cur, rfl, h⟩
  | @child children child name names node hmem hnamed _ ih =>
      rw [List.forall_mem_cons] at hnames
      have hdir : cur.dir = true := by cases h; assumption
      obtain ⟨hlen, entry, hlookup, hchild⟩ :=
        h.child hbound hnames.1 hmem hnamed
      obtain ⟨last, hdescend, hlast⟩ := ih hnames.2 hchild
      refine ⟨last, ?_, hlast⟩
      rw [descend, if_neg (by simp [hdir]; omega), hlookup]
      exact hdescend

/-- The descent of `find` arrives nowhere else. -/
theorem resolves_of_descend
    (hbound : v.metadata.clusterCount + 2 ≤ kEndOfChain)
    (hnames : ∀ name ∈ names, isDot name = false) (h : Holds v node cur)
    {entry : Entry} (hdescend : descend v cur names = some entry) :
    ∃ node', Resolves node names node' ∧ Holds v node' entry := by
  induction names generalizing cur node with
  | nil =>
      cases hdescend
      exact ⟨node, .here node, h⟩
  | cons name names ih =>
      rw [List.forall_mem_cons] at hnames
      rw [descend] at hdescend
      split at hdescend
      · cases hdescend
      rename_i hgo
      split at hdescend
      · cases hdescend
      rename_i next hlookup
      cases node with
      | file content =>
          cases h with
          | file hdir => exact absurd (Or.inl hdir) hgo
      | dir children =>
          obtain ⟨child, hmem, hnamed, hchild⟩ :=
            h.of_lookup hbound hnames.1 hlookup
          obtain ⟨node', hresolves, hnode'⟩ :=
            ih hnames.2 hchild hdescend
          exact ⟨node', .child hmem hnamed hresolves, hnode'⟩

/-- A read of a whole file returns its contents. -/
theorem read_of_holds (hbound : v.metadata.clusterCount + 2 ≤ kEndOfChain)
    {content : List UInt8} (h : Holds v (.file content) cur) (out : Mem) :
    ∃ r, (fileOf v cur).read 0 out content.length allOk =
        some ((content.length : Int), r) ∧
      (List.range content.length).map r.out = content := by
  cases h with
  | file hdir hsize hcontent =>
      have hfirst : (fileOf v cur).firstCluster = cur.firstCluster := by
        simp [fileOf, hdir]
      have hlen : (fileOf v cur).readLen 0 content.length =
          content.length := by
        simp only [File.readLen, fileOf, hdir, hsize]
        split <;> simp_all
      obtain ⟨r, hread, hout⟩ := File.read_allOk rfl hdir
        (File.cacheOk_fileOf cur) 0 content.length out
      rw [hlen, hfirst] at hread hout
      refine ⟨r, ?_, ?_⟩
      · rw [hread]
        by_cases hzero : content.length = 0
        · rw [if_pos hzero, hzero]
          rfl
        · rw [if_neg hzero, File.readValue, fileByte_of_holds hbound hcontent
            (show 0 + content.length - 1 < content.length by omega)]
          rfl
      · apply List.ext_getElem
        · simp
        · intro j hj hj'
          rw [List.getElem_map, List.getElem_range, hout, File.delivered,
            if_pos ⟨Nat.zero_le j, hj'⟩, Nat.zero_add,
            fileByte_of_holds hbound hcontent hj']
          rfl

/-- Whether a node is a directory. -/
def Node.isDir : Node → Bool
  | .file _ => false
  | .dir _ => true

theorem Holds.isDir (h : Holds v node cur) : (fileOf v cur).dir = node.isDir := by
  cases h <;> assumption

/-- `find` and `read` refine the tree an image encodes: a path without dot
components is valid exactly when its components name a node, as a directory
exactly when the node is one, and a file has the node's length and bytes. -/
theorem find_refines_tree {tree : Node}
    (hbound : v.metadata.clusterCount + 2 ≤ kEndOfChain)
    (htree : Holds v tree (rootEntry v)) (path : CString)
    (hdots : ∀ name ∈ components path.bytes, isDot name = false) :
    ∃ f, find v (some path) allOk = some (f, allOk) ∧
      (f.valid = true ↔
        ∃ node, Resolves tree (components path.bytes) node) ∧
      ∀ node, Resolves tree (components path.bytes) node →
        f.dir = node.isDir ∧
        ∀ content, node = .file content →
          f.size = content.length ∧
          ∀ out, ∃ r, f.read 0 out f.size allOk =
              some ((content.length : Int), r) ∧
            (List.range content.length).map r.out = content := by
  rw [find_allOk]
  cases hdescend : descend v (rootEntry v) (components path.bytes) with
  | none =>
      have hnot : ∀ node, ¬ Resolves tree (components path.bytes) node := by
        intro node hresolves
        obtain ⟨entry, hentry, -⟩ :=
          descend_of_resolves hbound hdots hresolves htree
        rw [hdescend] at hentry
        cases hentry
      refine ⟨File.invalid, rfl, ?_, fun node h => absurd h (hnot node)⟩
      constructor
      · intro hvalid
        cases hvalid
      · rintro ⟨node, hresolves⟩
        exact absurd hresolves (hnot node)
  | some entry =>
      obtain ⟨node, hresolves, -⟩ :=
        resolves_of_descend hbound hdots htree hdescend
      refine ⟨fileOf v entry, rfl, iff_of_true rfl ⟨node, hresolves⟩, ?_⟩
      intro node' hresolves'
      obtain ⟨entry', hentry', hholds⟩ :=
        descend_of_resolves hbound hdots hresolves' htree
      rw [hdescend] at hentry'
      cases hentry'
      refine ⟨hholds.isDir, ?_⟩
      rintro content rfl
      have hsize : (fileOf v entry).size = content.length := by
        cases hholds with
        | file hdir hsize => simp [fileOf, hdir, hsize]
      refine ⟨hsize, ?_⟩
      rw [hsize]
      exact read_of_holds hbound hholds

end Refinement

section Sample

/-- The bytes of the sample volume's long-named file. -/
def notesContent : List UInt8 :=
  List.replicate 512 0x61 ++ List.replicate 88 0x62

/-- Entry `i` of the subdirectory of the sample volume. -/
def sampleSub (i : Nat) : Mem := fun k => sample.disk.sectorAt 4 (32 * i + k)

/-- The subdirectory of the sample volume. -/
def sampleSubItems : List Item :=
  [.short (sampleSub 0), .short (sampleSub 1), .short (sampleSub 2)]

def sampleSubTree : Node :=
  .dir [(⟨none, [0x41]⟩, .file [0x78, 0x79, 0x7A])]

/-- The tree of the sample volume. -/
def sampleTree : Node :=
  .dir [(⟨some notes, [0x4E, 0x4F, 0x54, 0x45, 0x53, 0x7E, 0x31, 0x2E, 0x54,
      0x45, 0x58]⟩, .file notesContent),
    (⟨none, [0x53, 0x55, 0x42]⟩, sampleSubTree)]

/-- The FAT of the sample volume. -/
theorem sample_fat :
    (∀ c ∈ [2, 4, 5, 6], 2 ≤ c ∧ c < sample.metadata.clusterCount + 2 ∧
      kEndOfChain ≤ fatWord sample c) ∧
    fatWord sample 3 = 5 := by
  decide +kernel

/-- The bytes of the sample volume's entries and of the file in its
subdirectory. -/
theorem sampleTree_bytes :
    (∀ pos : Fin 3, [6][pos.val / 512]? = some 6 ∧
      [0x78, 0x79, 0x7A][pos] = clusterByte sample 6 (pos.val % 512)) ∧
    (IsShort (sampleSub 0) ∧ IsShort (sampleSub 1) ∧ IsShort (sampleSub 2) ∧
      sampleSub 3 0 = 0x00) ∧
    sampleSubItems.filterMap Item.slot =
      [(⟨none, [0x41]⟩, ⟨6, 3, false, by decide⟩)] ∧
    sampleRootItems.filterMap Item.slot =
      [(⟨some notes, [0x4E, 0x4F, 0x54, 0x45, 0x53, 0x7E, 0x31, 0x2E, 0x54,
          0x45, 0x58]⟩, ⟨3, 600, false, by decide⟩),
        (⟨none, [0x53, 0x55, 0x42]⟩, ⟨4, 0, true, by decide⟩)] := by
  decide +kernel

theorem sample_last {c : Nat} (h : c ∈ [2, 4, 5, 6]) :
    FatChain sample c [c] := by
  obtain ⟨hlo, hhi, hend⟩ := sample_fat.1 c h
  exact .last hlo hhi hend

theorem notes_chain : FatChain sample 3 [3, 5] :=
  .link (by decide) (by decide) (sample_fat.2 ▸ sample_last (by decide))

theorem layout_replicate {n k : Nat} {b : UInt8} (h : k < n) :
    layout [(0, List.replicate n b)] k = b := by
  simp [layout, h]

theorem clusterByte_sample {c k : Nat} (hlo : 2 ≤ c) (hhi : c < 8)
    (hk : k < 512) : clusterByte sample c k = layout (sampleSector c) k := by
  have hvalid : sample.metadata.validCluster c = true :=
    validCluster_iff.mpr ⟨hlo, hhi⟩
  have hlba : sample.metadata.clusterLba c = c := by
    rw [clusterLba_eq hvalid]
    simp only [sample]
    omega
  rw [clusterByte, hlba]
  change layout (sampleSector (c + k / 512)) (k % 512) = _
  rw [Nat.div_eq_of_lt hk, Nat.mod_eq_of_lt hk, Nat.add_zero]

theorem notes_holdsContent : HoldsContent sample 3 notesContent := by
  refine Or.inr ⟨[3, 5], notes_chain, ?_⟩
  intro pos hpos
  have hlen : notesContent.length = 600 := by
    rw [notesContent, List.length_append, List.length_replicate,
      List.length_replicate]
  have hbytes : sample.metadata.clusterBytes = 512 := rfl
  rw [hbytes]
  have hmod := Nat.mod_lt pos (show 0 < 512 by decide)
  by_cases hfirst : pos < 512
  · refine ⟨3, by rw [Nat.div_eq_of_lt hfirst]; rfl, ?_⟩
    rw [clusterByte_sample (by decide) (by decide) hmod, sampleSector,
      layout_replicate hmod]
    simp only [notesContent, List.getElem_append, List.length_replicate,
      List.getElem_replicate, hfirst, dite_true]
  · have hindex : pos / 512 = 1 := by omega
    refine ⟨5, by rw [hindex]; rfl, ?_⟩
    rw [clusterByte_sample (by decide) (by decide) hmod, sampleSector,
      layout_replicate (by omega)]
    simp only [notesContent, List.getElem_append, List.length_replicate,
      List.getElem_replicate, hfirst, dite_false]

theorem sampleSub_holdsContent :
    HoldsContent sample 6 [0x78, 0x79, 0x7A] := by
  refine Or.inr ⟨[6], sample_last (by decide), ?_⟩
  intro pos hpos
  exact ⟨6, sampleTree_bytes.1 ⟨pos, hpos⟩⟩

theorem sampleSub_entries : [4].flatMap (clusterEntries sample) =
    sampleSubItems.flatMap Item.entries ++
      (List.range' 3 13).map sampleSub := by
  rfl

theorem sampleSub_holdsDirectory : HoldsDirectory sample 4
    [(⟨none, [0x41]⟩, ⟨6, 3, false, by decide⟩)] := by
  obtain ⟨-, ⟨hself, hparent, hfile, hend⟩, hslots, -⟩ := sampleTree_bytes
  have hwf : WellFormed sampleSubItems :=
    ⟨hself, (fun _ h => nomatch h), hparent, (fun _ h => nomatch h), hfile,
      (fun _ h => nomatch h), trivial⟩
  exact ⟨[4], sampleSubItems, _, sample_last (by decide), sampleSub_entries,
    hwf, hend, hslots.symm⟩

theorem sampleSub_holds :
    Holds sample sampleSubTree ⟨4, 0, true, by decide⟩ := by
  refine .dir rfl sampleSub_holdsDirectory rfl
    (List.pairwise_singleton _ _) ?_
  intro i slot child hslot hchild
  cases i with
  | zero =>
      cases hslot
      cases hchild
      exact .file rfl rfl sampleSub_holdsContent
  | succ i => cases hslot

theorem sampleTree_holds : Holds sample sampleTree (rootEntry sample) := by
  obtain ⟨-, -, -, hslots⟩ := sampleTree_bytes
  refine .dir rfl ⟨[2], sampleRootItems, _, sample_last (by decide),
    sampleRoot_entries, sampleRoot_wellFormed, sampleRoot_isEnd,
    hslots.symm⟩ rfl ?_ ?_
  · refine List.pairwise_pair.mpr ?_
    change ∀ n ∈ _, ∀ n' ∈ _, _
    decide
  · intro i slot child hslot hchild
    match i with
    | 0 =>
        cases hslot
        cases hchild
        refine .file rfl ?_ notes_holdsContent
        rw [notesContent, List.length_append, List.length_replicate,
          List.length_replicate]
    | 1 =>
        cases hslot
        cases hchild
        exact sampleSub_holds
    | i + 2 => cases hslot

/-- The sample volume with the tree it encodes, at a path through its
subdirectory. -/
theorem find_refines_tree_sample :
    Holds sample sampleTree (rootEntry sample) ∧
    ∃ f, find sample (some ⟨[0x73, 0x75, 0x62, 0x2F, 0x2F, 0x61], by decide⟩)
        allOk = some (f, allOk) ∧
      (f.valid = true ↔ ∃ node, Resolves sampleTree
        (components [0x73, 0x75, 0x62, 0x2F, 0x2F, 0x61]) node) := by
  obtain ⟨f, hfind, hvalid, -⟩ := find_refines_tree (by decide)
    sampleTree_holds ⟨[0x73, 0x75, 0x62, 0x2F, 0x2F, 0x61], by decide⟩
    (by decide)
  exact ⟨sampleTree_holds, f, hfind, hvalid⟩

end Sample

end Fat32

end IntroOs
