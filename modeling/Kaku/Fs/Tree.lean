-- SUMMARY: The tree of directories of a volume, and the walk over it from number to number.
import Kaku.Fs.Contents
import Kaku.Fs.DiskTable
import Kaku.Fs.Path

/-!
# The tree of a volume

Where the records in use lead to inodes in use, resolving a path is a walk from number to
number. It depends on the listings of the directories that it comes through.
-/

namespace Kaku

/-- The inode of the first record whose name `kstrcmp` finds equal, in use or not, and 0 if
there is none. -/
def firstNamed (es : List (Nat × List UInt8)) (name : List UInt8) : Nat :=
  ((es.find? fun e => kstrcmp name e.2 == 0).map Prod.fst).getD 0

variable {fs : Mount} {v v' : Volume} {dir : Inode} {es : List (Nat × List UInt8)}
  {name : List UInt8}

/-- What has been found is found in front of any other record. -/
theorem firstNamed_append (h : firstNamed es name ≠ 0) (es' : List (Nat × List UInt8)) :
    firstNamed (es ++ es') name = firstNamed es name := by
  rw [firstNamed] at h
  rw [firstNamed, firstNamed, List.find?_append]
  cases hfind : es.find? fun e => kstrcmp name e.2 == 0 with
  | none =>
    rw [hfind] at h
    exact absurd rfl h
  | some e => rfl

theorem firstNamed_concat {n : Nat} {filename : List UInt8}
    (h : ∀ e ∈ es, kstrcmp name e.2 ≠ 0) :
    firstNamed (es ++ [(n, filename)]) name = if kstrcmp name filename = 0 then n else 0 := by
  have hnone : (es.find? fun e => kstrcmp name e.2 == 0) = none := by
    rw [List.find?_eq_none]
    intro e he
    simpa using h e he
  rw [firstNamed, List.find?_append, hnone, Option.none_or, List.find?_singleton]
  split_ifs with hzero hname hname
  · rfl
  · exact absurd (beq_iff_eq.1 hzero) hname
  · exact absurd (beq_iff_eq.2 hname) hzero
  · rfl

/-- A name that is found belongs to a record. -/
theorem mem_of_firstNamed (h : firstNamed es name ≠ 0) :
    ∃ e ∈ es, e.1 = firstNamed es name ∧ kstrcmp name e.2 = 0 := by
  rw [firstNamed] at h ⊢
  cases hfind : es.find? fun e => kstrcmp name e.2 == 0 with
  | none =>
    rw [hfind] at h
    exact absurd rfl h
  | some e =>
    have hequal := List.find?_some hfind
    exact ⟨e, List.mem_of_find?_eq_some hfind, rfl, beq_iff_eq.1 hequal⟩

theorem firstNamed_eq_zero (h : ∀ e ∈ es, e.1 ≠ 0 → kstrcmp name e.2 ≠ 0) :
    firstNamed es name = 0 := by
  by_contra hne
  obtain ⟨e, he, hfirst, hequal⟩ := mem_of_firstNamed hne
  exact h e he (hfirst ▸ hne) hequal

/-- A new record is found behind the others exactly if none of them has its name. -/
theorem firstNamed_concat_ne_zero {n : Nat} {filename : List UInt8} (hn : n ≠ 0)
    (hzero : firstNamed es name = 0) : firstNamed (es ++ [(n, filename)]) name ≠ 0 ↔
      (∀ e ∈ es, kstrcmp name e.2 ≠ 0) ∧ kstrcmp name filename = 0 := by
  rcases em (∀ e ∈ es, kstrcmp name e.2 ≠ 0) with hnone | hsome
  · rw [firstNamed_concat hnone, and_iff_right hnone, ite_ne_right_iff, and_iff_left hn]
  · refine iff_of_false (fun hne => hne ?_) fun h => hsome h.1
    have hfound : ∃ e ∈ es, (kstrcmp name e.2 == 0) = true := by
      simpa using hsome
    rw [← List.find?_isSome, Option.isSome_iff_exists] at hfound
    obtain ⟨e, hfind⟩ := hfound
    rw [firstNamed, List.find?_append, hfind, Option.some_or, ← hfind, ← firstNamed, hzero]

namespace Entries

theorem find_eq_firstNamed (d : Entries fs v dir) (name : List UInt8) :
    ((d.entries.find? fun e => kstrcmp name e.entryName == 0).map Entry.entryInode).getD 0 =
      firstNamed d.listing name := by
  rw [firstNamed, ← d.entries_map, List.find?_map, Option.map_map]
  rfl

/-- A directory whose blocks are the same has the same records. -/
theorem keep (d : Entries fs v dir) (h : fs.SameContents v v' dir) :
    ∃ d' : Entries fs v' dir, d'.listing = d.listing := by
  have hblk (i : Nat) (hi : i < fs.nbBlocks dir) (x : Nat) (hx : x < fs.blockSize) :
      v'.blk fs (v'.blockPtr fs dir i) x = v.blk fs (v.blockPtr fs dir i) x := by
    rw [h.ptrs]
    exact h.bytes i (d.mapped i hi) x hx
  refine ⟨⟨d.records, d.isDir, fun i hi => ?_, fun i hi => (d.wellFormed i hi).congr (hblk i hi)⟩,
    ?_⟩
  · rw [h.ptrs]
    exact d.mapped i hi
  · apply List.flatMap_congr
    intro i hi
    have hi := List.mem_range.1 hi
    exact (d.wellFormed i hi).links_eq (hblk i hi)

end Entries

namespace Mount

/-- The directories of a volume: the root is one of them, and a record in use has a name that
is a C string, and the number of an inode in use. -/
structure Tree (fs : Mount) (v : Volume) : Prop where
  tables : fs.InodeTables v
  root : fs.InUse v 2
  rootIsDir : (fs.inodeAt v 2).isDir = true
  entries : ∀ k, fs.InUse v k → (fs.inodeAt v k).isDir = true →
    ∃ d : Entries fs v (fs.inodeAt v k), ∀ e ∈ d.listing, e.1 ≠ 0 → 0 ∉ e.2 ∧ fs.InUse v e.1

/-! ## The walk -/

/-- Where a name leads from the inode of a number. -/
def child (fs : Mount) (v : Volume) (k : Nat) (name : List UInt8) : Nat :=
  ((fs.findInDir (fs.inodeAt v k) name v).toOption.map Prod.fst).getD 0

/-- Where the names lead one after the other, and 0 if one of them leads nowhere. -/
def walk (fs : Mount) (v : Volume) : Nat → List (List UInt8) → Nat
  | k, [] => k
  | k, name :: names => if fs.child v k name = 0 then 0 else fs.walk v (fs.child v k name) names

/-- The names of a path, without the empty one in front of a leading slash. -/
def pathNames (path : List UInt8) : List (List UInt8) :=
  (kstrsplit path slash).drop (if path.head? = some slash then 1 else 0)

/-- Where a path leads. -/
def pathNumber (fs : Mount) (v : Volume) (path : List UInt8) : Nat :=
  if path = [slash] then 2 else if pathNames path = [] then 0 else fs.walk v 2 (pathNames path)

/-- The inode of a number, and the inode of zeros for 0. -/
def numbered (fs : Mount) (v : Volume) (k : Nat) : Inode :=
  if k = 0 then noInode else fs.inodeAt v k

variable {inode : Inode} {k n t : Nat} {names : List (List UInt8)} {path : List UInt8} {w : Volume}

theorem numbered_of_ne (h : k ≠ 0) : fs.numbered v k = fs.inodeAt v k := if_neg h

theorem InUse.ne_zero (h : fs.InUse v k) : k ≠ 0 := Nat.one_le_iff_ne_zero.1 h.1

/-- In a directory a name leads to its first record. -/
theorem child_eq (hg : fs.Good) (hinode : fs.inodeAt v k = dir) (d : Entries fs v dir)
    (name : List UInt8) : fs.child v k name = firstNamed d.listing name := by
  subst hinode
  obtain ⟨t, hfind⟩ := d.findInDir hg name v.transfers
  rw [Volume.after_self, d.find_eq_firstNamed] at hfind
  rw [child, hfind]
  rfl

theorem findInDir_of_not_dir (h : dir.isDir = false) (name : List UInt8) :
    fs.findInDir dir name v = .ok (0, v) := by
  rw [findInDir, listDir, h]
  rfl

/-- From something else than a directory no name leads anywhere. -/
theorem child_of_not_dir (h : (fs.inodeAt v k).isDir = false) : fs.child v k name = 0 := by
  rw [child, findInDir_of_not_dir h]
  rfl

namespace Tree

variable (h : fs.Tree v)
include h

/-- From a directory with the same blocks every name leads where it led. -/
theorem child_congr (hk : fs.InUse v k) (hsame : fs.inodeAt v' k = fs.inodeAt v k)
    (hcontents : (fs.inodeAt v k).isDir = true → fs.SameContents v v' (fs.inodeAt v k))
    (name : List UInt8) : fs.child v' k name = fs.child v k name := by
  have hgood := h.tables.good
  cases hdir : (fs.inodeAt v k).isDir with
  | true =>
    obtain ⟨d, -⟩ := h.entries k hk hdir
    obtain ⟨d', hlisting⟩ := d.keep (hcontents hdir)
    rw [child_eq hgood hsame d', child_eq hgood rfl d, hlisting]
  | false => rw [child_of_not_dir hdir, child_of_not_dir (hsame ▸ hdir)]

theorem findInDir (hk : fs.InUse v k) (name : List UInt8) (t : Nat) :
    ∃ u, fs.findInDir (fs.inodeAt v k) name (v.after t) = .ok (fs.child v k name, v.after u) := by
  cases hdir : (fs.inodeAt v k).isDir with
  | true =>
    obtain ⟨d, -⟩ := h.entries k hk hdir
    obtain ⟨u, hfind⟩ := d.findInDir h.tables.good name t
    rw [d.find_eq_firstNamed, ← child_eq h.tables.good rfl d] at hfind
    exact ⟨u, hfind⟩
  | false =>
    refine ⟨t, ?_⟩
    rw [findInDir_of_not_dir hdir, child_of_not_dir hdir]

/-- A name leads to an inode in use. -/
theorem inUse_child (hk : fs.InUse v k) (hne : fs.child v k name ≠ 0) :
    fs.InUse v (fs.child v k name) := by
  cases hdir : (fs.inodeAt v k).isDir with
  | true =>
    obtain ⟨d, hlive⟩ := h.entries k hk hdir
    rw [child_eq h.tables.good rfl d] at hne ⊢
    obtain ⟨e, he, hfirst, -⟩ := mem_of_firstNamed hne
    rw [← hfirst] at hne ⊢
    exact (hlive e he hne).2
  | false => exact absurd (child_of_not_dir hdir) hne

theorem readInode (hk : fs.InUse v k) (t : Nat) :
    ∃ u, fs.readInode k (v.after t) = .ok (fs.inodeAt v k, v.after u) := by
  have hlayout : SameLayout v (v.after t) := .of_eq rfl rfl
  obtain ⟨u, hread⟩ := (h.tables.congr hlayout).readInode hk.1 hk.2.1
  exact ⟨u, hread⟩

theorem inUse_walk (hk : fs.InUse v k) (hne : fs.walk v k names ≠ 0) :
    fs.InUse v (fs.walk v k names) := by
  induction names generalizing k with
  | nil => exact hk
  | cons name names ih =>
    rw [walk] at hne ⊢
    split_ifs at hne ⊢ with hzero
    · exact absurd rfl hne
    · exact ih (h.inUse_child hk hzero) hne

/-- The loop over the names behind the first one. -/
theorem resolveNames (hk : fs.InUse v k) (names : List (List UInt8)) (t : Nat) :
    ∃ u, fs.resolveNames names (fs.inodeAt v k) (v.after t) =
      .ok (fs.numbered v (fs.walk v k names), v.after u) := by
  induction names generalizing k t with
  | nil =>
    refine ⟨t, ?_⟩
    rw [Mount.resolveNames, walk, numbered_of_ne hk.ne_zero]
    rfl
  | cons name names ih =>
    obtain ⟨t₁, hfind⟩ := h.findInDir hk name t
    rw [Mount.resolveNames, hfind, ok_bind, walk]
    simp only
    split_ifs with hzero
    · exact ⟨t₁, rfl⟩
    · have hchild := h.inUse_child hk hzero
      obtain ⟨t₂, hread⟩ := h.readInode hchild t₁
      obtain ⟨u, hrest⟩ := ih hchild t₂
      refine ⟨u, ?_⟩
      rw [hread, ok_bind]
      exact hrest

/-- A path with a name in it is resolved to what it leads to. -/
theorem resolvePath_of_name (hpath : path ≠ [slash]) (hnames : pathNames path ≠ []) (t : Nat) :
    ∃ u, fs.resolvePath path (v.after t) =
      .ok (fs.numbered v (fs.pathNumber v path), v.after u) := by
  obtain ⟨t₁, hroot⟩ := h.readInode h.root t
  obtain ⟨u, hrest⟩ := h.resolveNames h.root (pathNames path) t₁
  refine ⟨u, ?_⟩
  rw [pathNumber, if_neg hpath, if_neg hnames]
  obtain ⟨name, names, hsplit⟩ := List.exists_cons_of_ne_nil hnames
  rw [hsplit] at hrest ⊢
  rw [pathNames] at hsplit
  rw [Mount.resolvePath, hroot, ok_bind]
  simp only [if_neg hpath]
  generalize (if path.head? = some slash then 1 else 0) = start at hsplit ⊢
  have hfirst : (kstrsplit path slash)[start]? = some name := by
    rw [← List.head?_drop, hsplit, List.head?_cons]
  have hbehind : (kstrsplit path slash).drop (start + 1) = names := by
    rw [← List.tail_drop, hsplit, List.tail_cons]
  rw [hfirst, hbehind]
  exact hrest

/-- A path that leads to an inode is resolved to it. -/
theorem resolvePath (hne : fs.pathNumber v path ≠ 0) (t : Nat) :
    ∃ u, fs.resolvePath path (v.after t) =
      .ok (fs.inodeAt v (fs.pathNumber v path), v.after u) := by
  rcases eq_or_ne path [slash] with rfl | hpath
  · obtain ⟨u, hroot⟩ := h.readInode h.root t
    refine ⟨u, ?_⟩
    rw [Mount.resolvePath, hroot, ok_bind]
    simp only [if_pos, pathNumber]
    rfl
  · have hnames : pathNames path ≠ [] := by
      intro hnil
      rw [pathNumber, if_neg hpath, if_pos hnil] at hne
      exact hne rfl
    obtain ⟨u, hresolve⟩ := h.resolvePath_of_name hpath hnames t
    rw [numbered_of_ne hne] at hresolve
    exact ⟨u, hresolve⟩

/-- What a path is resolved to is what it leads to. -/
theorem of_resolvePath (hresolve : fs.resolvePath path (v.after t) = .ok (inode, w)) :
    inode = fs.numbered v (fs.pathNumber v path) := by
  rcases eq_or_ne path [slash] with rfl | hpath
  · have hne : fs.pathNumber v [slash] ≠ 0 := by
      rw [pathNumber, if_pos rfl]
      exact Nat.succ_ne_zero 1
    obtain ⟨u, hrun⟩ := h.resolvePath hne t
    rw [hrun] at hresolve
    cases hresolve
    rfl
  rcases eq_or_ne (pathNames path) [] with hnil | hnames
  · -- the first name is the null pointer behind the end of the array
    rw [pathNumber, if_neg hpath, if_pos hnil]
    obtain ⟨u, hroot⟩ := h.readInode h.root t
    rw [pathNames] at hnil
    rw [Mount.resolvePath, hroot, ok_bind] at hresolve
    simp only [if_neg hpath] at hresolve
    rw [← List.head?_drop, hnil, List.head?_nil] at hresolve
    obtain ⟨⟨n, u'⟩, hfind, hresolve⟩ := bind_eq_ok.1 hresolve
    have hn : n = 0 := by
      rw [findName] at hfind
      obtain ⟨⟨found, u''⟩, -, hfind⟩ := bind_eq_ok.1 hfind
      cases found with
      | none =>
        cases hfind
        rfl
      | some es =>
        cases es with
        | nil =>
          cases hfind
          rfl
        | cons e es => cases hfind
    rw [hn, if_pos rfl] at hresolve
    cases hresolve
    rfl
  · obtain ⟨u, hrun⟩ := h.resolvePath_of_name hpath hnames t
    rw [hrun] at hresolve
    cases hresolve
    rfl

theorem inUse_pathNumber (hne : fs.pathNumber v path ≠ 0) :
    fs.InUse v (fs.pathNumber v path) := by
  rw [pathNumber] at hne ⊢
  split_ifs at hne ⊢
  · exact h.root
  · exact absurd rfl hne
  · exact h.inUse_walk h.root hne

end Tree

/-! ## Paths that still lead where they led -/

/-- The inodes in use are the same, and every name leads where it led. -/
structure Extends (fs : Mount) (v v' : Volume) : Prop where
  inUse : ∀ k, fs.InUse v k → fs.InUse v' k
  inodeAt : ∀ k, fs.InUse v k → fs.inodeAt v' k = fs.inodeAt v k
  child : ∀ k, fs.InUse v k → ∀ name, fs.child v k name ≠ 0 → fs.child v' k name = fs.child v k name

namespace Extends

theorem trans {w : Volume} (h : fs.Extends v v') (h' : fs.Extends v' w) : fs.Extends v w where
  inUse k hk := h'.inUse k (h.inUse k hk)
  inodeAt k hk := (h'.inodeAt k (h.inUse k hk)).trans (h.inodeAt k hk)
  child k hk name hne := by
    have hsame := h.child k hk name hne
    rw [h'.child k (h.inUse k hk) name (hsame.symm ▸ hne), hsame]

variable (h : fs.Extends v v') (ht : fs.Tree v)
include h ht

theorem walk (hk : fs.InUse v k) (hne : fs.walk v k names ≠ 0) :
    fs.walk v' k names = fs.walk v k names := by
  induction names generalizing k with
  | nil => rfl
  | cons name names ih =>
    rw [Mount.walk] at hne
    rw [Mount.walk, Mount.walk]
    split_ifs at hne with hzero
    · exact absurd rfl hne
    · rw [h.child k hk name hzero, if_neg hzero, if_neg hzero]
      exact ih (ht.inUse_child hk hzero) hne

theorem pathNumber (hne : fs.pathNumber v path ≠ 0) :
    fs.pathNumber v' path = fs.pathNumber v path := by
  rw [Mount.pathNumber] at hne
  rw [Mount.pathNumber, Mount.pathNumber]
  split_ifs at hne ⊢
  · rfl
  · rfl
  · exact h.walk ht ht.root hne

/-- Every path that was resolved to an inode is still resolved to it. -/
theorem resolvePath (ht' : fs.Tree v') {u : Nat}
    (hresolve : fs.resolvePath path (v.after t) = .ok (inode, w)) (hne : inode ≠ noInode) :
    ∃ w', fs.resolvePath path (v'.after u) = .ok (inode, w') := by
  have hinode := ht.of_resolvePath hresolve
  have hnumber : fs.pathNumber v path ≠ 0 := by
    intro hzero
    rw [hzero] at hinode
    exact hne hinode
  rw [numbered_of_ne hnumber] at hinode
  have hsame := h.pathNumber ht hnumber
  obtain ⟨u', hrun⟩ := ht'.resolvePath (hsame.symm ▸ hnumber) u
  rw [hsame, h.inodeAt _ (ht.inUse_pathNumber hnumber), ← hinode] at hrun
  exact ⟨_, hrun⟩

end Extends

end Mount

end Kaku
