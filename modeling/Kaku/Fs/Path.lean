-- SUMMARY: Paths: splitting them into names, and walking the directories from the root on.
import Kaku.Fs.InodeTable
import Kaku.Fs.Listing

/-!
# Paths

`kstrsplit` and `kstrjoin` of `lib/src/string.h`, and `fs_ext2_resolve_path` of
`fs/src/ext2.c`. A path is a C string: the bytes in front of its zero byte.
-/

namespace Kaku

def slash : UInt8 := 0x2F

/-- The loop of `kstrsplit`, with the segment that it is in. A delimiter always ends a
segment, and the end of the string ends one that is not empty. -/
def kstrsplitFrom (delim : UInt8) : List UInt8 → List UInt8 → List (List UInt8)
  | segment, [] => if segment = [] then [] else [segment]
  | segment, c :: s =>
    if c = delim then segment :: kstrsplitFrom delim [] s
    else kstrsplitFrom delim (segment ++ [c]) s

def kstrsplit (s : List UInt8) (delim : UInt8) : List (List UInt8) := kstrsplitFrom delim [] s

/-- `kstrjoin`, of at least one string. -/
def kstrjoin (delim : UInt8) : List (List UInt8) → List UInt8
  | [] => []
  | [s] => s
  | s :: t :: strs => s ++ delim :: kstrjoin delim (t :: strs)

namespace Mount

/-- The inode that stands for failure. -/
def noInode : Inode := ⟨fun _ => 0, 0⟩

/-- `__fs_ext2_find_in_dir` with a name from `dynarray_get`, which is a null pointer behind
the end of the array. -/
def findName (fs : Mount) (dir : Inode) (name : Option (List UInt8)) (v : Volume) :
    K (Nat × Volume) :=
  match name with
  | some name => fs.findInDir dir name v
  | none => do
    match ← fs.listDir dir v with
    | (some (_ :: _), _) => .error .wild
    | (_, v) => pure (0, v)

/-- The loop over the names behind the first one. -/
def resolveNames (fs : Mount) : List (List UInt8) → Inode → Volume → K (Inode × Volume)
  | [], inode, v => pure (inode, v)
  | name :: names, inode, v => do
    let (nextInodeId, v) ← fs.findInDir inode name v
    if nextInodeId = 0 then pure (noInode, v)
    else
      let (next, v) ← fs.readInode nextInodeId v
      fs.resolveNames names next v

def resolvePath (fs : Mount) (path : List UInt8) (v : Volume) : K (Inode × Volume) := do
  let (root, v) ← fs.readInode 2 v
  if path = [slash] then pure (root, v)
  else
    let names := kstrsplit path slash
    let start := if path.head? = some slash then 1 else 0
    let (nextInodeId, v) ← fs.findName root names[start]? v
    if nextInodeId = 0 then pure (noInode, v)
    else
      let (next, v) ← fs.readInode nextInodeId v
      fs.resolveNames (names.drop (start + 1)) next v

/-! ## What a walk leaves alone -/

variable {fs : Mount} {v v' : Volume} {dir inode : Inode} {n : Nat} {name : Option (List UInt8)}
  {names : List (List UInt8)} {path : List UInt8}

theorem findName_after (h : fs.findName dir name v = .ok (n, v')) : ∃ t, v' = v.after t := by
  cases name with
  | some name => exact findInDir_after h
  | none =>
    rw [findName] at h
    obtain ⟨⟨found, w⟩, hlist, h⟩ := bind_eq_ok.1 h
    obtain ⟨t, rfl⟩ := listDir_after hlist
    refine ⟨t, ?_⟩
    match found, h with
    | none, h => cases h; rfl
    | some [], h => cases h; rfl
    | some (_ :: _), h => cases h

theorem resolveNames_after (h : fs.resolveNames names dir v = .ok (inode, v')) :
    ∃ t, v' = v.after t := by
  induction names generalizing dir v with
  | nil =>
    cases h
    exact ⟨_, rfl⟩
  | cons name names ih =>
    rw [resolveNames] at h
    obtain ⟨⟨nextInodeId, w⟩, hfind, h⟩ := bind_eq_ok.1 h
    obtain ⟨t, rfl⟩ := findInDir_after hfind
    simp only at h
    split at h
    · cases h
      exact ⟨t, rfl⟩
    · obtain ⟨⟨next, w⟩, hread, h⟩ := bind_eq_ok.1 h
      obtain ⟨u, rfl⟩ := readInode_after hread
      obtain ⟨u', hv⟩ := ih h
      exact ⟨u', hv⟩

theorem resolvePath_after (h : fs.resolvePath path v = .ok (inode, v')) : ∃ t, v' = v.after t := by
  rw [resolvePath] at h
  obtain ⟨⟨root, w⟩, hroot, h⟩ := bind_eq_ok.1 h
  obtain ⟨t, rfl⟩ := readInode_after hroot
  simp only at h
  split at h
  · cases h
    exact ⟨t, rfl⟩
  · obtain ⟨⟨nextInodeId, w⟩, hfind, h⟩ := bind_eq_ok.1 h
    obtain ⟨u, rfl⟩ := findName_after hfind
    simp only at h
    split at h
    · cases h
      exact ⟨u, rfl⟩
    · obtain ⟨⟨next, w⟩, hread, h⟩ := bind_eq_ok.1 h
      obtain ⟨u', rfl⟩ := readInode_after hread
      obtain ⟨u'', hv⟩ := resolveNames_after h
      exact ⟨u'', hv⟩

end Mount

end Kaku
