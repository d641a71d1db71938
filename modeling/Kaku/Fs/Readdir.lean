-- SUMMARY: Reading a directory into the memory of a program: what the records hold, and which bytes are written.
import Kaku.Fs.Open

/-!
# `SYS_READDIR`

`__syscall_readdir` of `syscall/src/syscall.c`. The entries of the directory are put one behind
the other into the buffer of the program, as many as there is room for. The inode of each entry
is read for its size.
-/

namespace Kaku

/-- `sizeof(dir_entry)`: the inode number, the size, `is_dir` and the name are at 0, 4, 8 and 9. -/
def dirEntryBytes : Nat := 268

/-- What is put into the record at `out` before the inode of the entry is read. -/
def putEntry (out : Nat) (e : Entry) (m : Mem) : Mem :=
  let nameLen := if nameBytes ≤ e.entryNameLen then nameBytes - 1 else e.entryNameLen
  let m := m.blit (out + 9) nameLen fun k => e.entryName.getD k 0
  let m := m.store (out + 9 + nameLen) 1 0
  let m := m.store out 4 e.entryInode
  m.store (out + 8) 1 (if e.entryType = 2 then 1 else 0)

namespace Mount

/-- The loop over the entries. Memory is given as the loop leaves it, also where it leaves it
because an inode cannot be read. -/
def fillEntries (fs : Mount) (buf maxEntries : Nat) :
    List Entry → (written : Nat) → Mem → Volume → Mem × K (Nat × Volume)
  | [], written, m, v => (m, .ok (written, v))
  | e :: es, written, m, v =>
    if written < maxEntries then
      let out := buf + written * dirEntryBytes
      let m := putEntry out e m
      match fs.readInode e.entryInode v with
      | .error fault => (m, .error fault)
      | .ok (ino, v) =>
        fs.fillEntries buf maxEntries es (written + 1) (m.store (out + 4) 4 ino.inodeSizeLowBits) v
    else (m, .ok (written, v))

/-- `__syscall_readdir`, with what it returns in `eax`. What `kmalloc` leaves in the node is given
by `stale`, as for the buffer of a transfer. -/
def syscallReaddir (fs : Mount) (path : List UInt8) (buf bufLen : Nat) (m : Mem) (v : Volume) :
    Mem × K (Int × Volume) :=
  match vfsOpen nodeBytes (fs.stale v.transfers) (some fs) path v with
  | .error fault => (m, .error fault)
  | .ok (none, v) => (m, .ok (-1, v))
  | .ok (some dir, v) =>
    if !dir.isDir then (m, .ok (-1, v))
    else
      match fs.listDir dir.fsSpecific v with
      | .error fault => (m, .error fault)
      | .ok (none, v) => (m, .ok (-1, v))
      | .ok (some entries, v) =>
        let (m, r) := fs.fillEntries buf (bufLen / dirEntryBytes) entries 0 m v
        (m, r.map fun (written, v) => ((written : Int), v))

/-- The inode with this number lies in one block of the inode table of its group. -/
def HasSlot (fs : Mount) (v : Volume) (inodeId : Nat) : Prop :=
  ∃ slot, fs.inodeSlot inodeId v = .ok slot ∧ slot.2 + inodeBytes ≤ fs.blockSize

/-- Whenever the kernel is asked, the path leads to a directory, and these are its entries. -/
def Lists (fs : Mount) (v : Volume) (path : List UInt8) (es : List Entry) : Prop :=
  ∀ t, ∃ dir u w, fs.resolvePath path (v.after t) = .ok (dir, v.after u) ∧ dir.isDir = true ∧
    fs.listDir dir (v.after u) = .ok (some es, v.after w)

end Mount

/-- The record at `out` has the inode number, the directory flag and the name of the entry. -/
structure HoldsEntry (m : Mem) (out : Nat) (e : Entry) : Prop where
  vnodeId : m.load out 4 = e.entryInode
  isDir : m (out + 8) = if e.entryType = 2 then 1 else 0
  name : m.peek (out + 9) (e.entryName.length + 1) = e.entryName ++ [0]

/-- The fields of an entry are as wide as in its record on the drive. -/
structure Entry.Sized (e : Entry) : Prop where
  inode : e.entryInode < 2 ^ 32
  nameLen : e.entryNameLen < nameBytes
  name : e.entryName.length = e.entryNameLen

variable {fs : Mount} {v v' : Volume} {dir : Inode} {e : Entry} {es : List Entry} {m m' buf : Mem}
  {out start maxEntries written bufLen inodeId n t x : Nat} {path : List UInt8}

/-! ## The entries of a directory -/

namespace Mount

theorem listBlk_sized {fuel offset : Nat} (h : fs.listBlk buf fuel offset = .ok es) :
    ∀ e ∈ es, e.Sized := by
  induction fuel generalizing offset es with
  | zero => cases h
  | succ fuel ih =>
    rw [listBlk] at h
    split at h
    · simp only [bind_eq_ok, peek_eq_ok, peekBytes] at h
      obtain ⟨inode, ⟨-, rfl⟩, size, ⟨-, rfl⟩, nameLen, ⟨-, rfl⟩, type, ⟨-, rfl⟩, name, hname, rest,
        hrest, h⟩ := h
      split at hname
      · cases hname
        cases h
        refine List.forall_mem_cons.2 ⟨⟨Mem.load_lt, Mem.load_lt, ?_⟩, ih hrest⟩
        simp only [List.length_map, List.length_range]
      · cases hname
    · cases h
      simp

theorem listBlks_sized {left i : Nat} (h : fs.listBlks dir left i v = .ok (some es, v')) :
    ∀ e ∈ es, e.Sized := by
  induction left generalizing i v v' es with
  | zero =>
    cases h
    simp
  | succ left ih =>
    rw [listBlks] at h
    simp only at h
    split at h
    · cases h
    · obtain ⟨entries, hblk, h⟩ := bind_eq_ok.1 h
      obtain ⟨⟨rest, w⟩, hrest, h⟩ := bind_eq_ok.1 h
      cases rest with
      | none => cases h
      | some rest =>
        cases h
        exact List.forall_mem_append.2 ⟨listBlk_sized hblk, ih hrest⟩

theorem listDir_sized (h : fs.listDir dir v = .ok (some es, v')) : ∀ e ∈ es, e.Sized := by
  rw [listDir] at h
  split at h
  · cases h
  · exact listBlks_sized h

/-! ## Reading the inodes -/

theorem HasSlot.readInode (h : fs.HasSlot v inodeId) (t : Nat) :
    ∃ inode u, fs.readInode inodeId (v.after t) = .ok (inode, v.after u) := by
  obtain ⟨⟨blk, offset⟩, hslot, hin⟩ := h
  have hslot' : fs.inodeSlot inodeId (v.after t) = .ok (blk, offset) := hslot
  rw [Mount.readInode, hslot', ok_bind]
  simp only
  split
  · exact ⟨_, _, rfl⟩
  · rw [if_neg (by simpa using hin)]
    exact ⟨_, _, rfl⟩

/-- With a drive that answers only such inodes can be read. -/
theorem hasSlot_of_readInode {inode : Inode} (hr : fs.Reliable)
    (h : fs.readInode inodeId (v.after t) = .ok (inode, v')) : fs.HasSlot v inodeId := by
  rw [Mount.readInode] at h
  obtain ⟨⟨blk, offset⟩, hslot, h⟩ := bind_eq_ok.1 h
  refine ⟨(blk, offset), hslot, ?_⟩
  simp only [readBlk, ataRead, hr _ _, Option.isNone_none, Bool.not_true, Bool.false_eq_true,
    if_false] at h
  split at h
  · cases h
  · simp only
    omega

/-- Number 0, which a record has that is not in use, is not the number of an inode. -/
theorem not_hasSlot_zero (hfew : fs.nbBlockGroups * v.sbNbInodesInGroup < 2 ^ 32) :
    ¬ fs.HasSlot v 0 := by
  rintro ⟨⟨blk, offset⟩, hslot, -⟩
  exact inodeSlot_zero hfew hslot

end Mount

/-! ## One record -/

/-- The name has at most 255 bytes, and its zero byte is in the record. -/
theorem putEntry_outside (hx : x < out ∨ out + dirEntryBytes ≤ x) : putEntry out e m x = m x := by
  rw [dirEntryBytes] at hx
  have hname : (if nameBytes ≤ e.entryNameLen then nameBytes - 1 else e.entryNameLen) ≤ 255 := by
    rw [nameBytes]
    split <;> omega
  rw [putEntry, Mem.store_of_not_mem (by omega), Mem.store_of_not_mem (by omega),
    Mem.store_of_not_mem (by omega), Mem.blit_of_not_mem (by omega)]

theorem putEntry_holds (out : Nat) (m : Mem) (he : e.Sized) : HoldsEntry (putEntry out e m) out e := by
  have hname := he.name
  have hnameLen := he.nameLen
  have hlen : (if nameBytes ≤ e.entryNameLen then nameBytes - 1 else e.entryNameLen) =
      e.entryName.length := by
    rw [if_neg (by omega), hname]
  rw [putEntry, hlen]
  rw [nameBytes] at hnameLen
  refine ⟨?_, ?_, ?_⟩
  · have hflag (m : Mem) (flag : Nat) : (m.store (out + 8) 1 flag).load out 4 = m.load out 4 :=
      Mem.load_congr fun x hlo hhi => Mem.store_of_not_mem (by omega)
    rw [hflag, Mem.load_store_self]
    exact Nat.mod_eq_of_lt he.inode
  · rw [Mem.store, if_pos (by omega), Nat.sub_self]
    split <;> rfl
  · rw [show e.entryName.length + 1 = (e.entryName ++ [0]).length by simp, Mem.peek_eq_iff]
    intro k hk
    rw [List.length_append, List.length_singleton] at hk
    rw [Mem.store_of_not_mem (by omega), Mem.store_of_not_mem (by omega)]
    rcases Nat.lt_or_ge k e.entryName.length with hin | hend
    · rw [Mem.store_of_not_mem (by omega), Mem.blit_of_mem (by omega) (by omega),
        Nat.add_sub_cancel_left, List.getElem_append_left hin, List.getD_eq_getElem]
    · obtain rfl : k = e.entryName.length := by omega
      rw [Mem.store, if_pos (by omega), List.getElem_append_right hend, List.getElem_singleton]
      simp

/-- The size in a record, and what is outside of the record, do not matter. -/
theorem HoldsEntry.congr (h : HoldsEntry m out e) (he : e.Sized)
    (hsame : ∀ x, out ≤ x → x < out + dirEntryBytes → (x < out + 4 ∨ out + 8 ≤ x) → m' x = m x) :
    HoldsEntry m' out e where
  vnodeId := by
    rw [dirEntryBytes] at hsame
    exact (Mem.load_congr fun x hlo hhi => hsame x hlo (by omega) (by omega)).trans h.vnodeId
  isDir := by
    rw [dirEntryBytes] at hsame
    rw [hsame (out + 8) (by omega) (by omega) (by omega), h.isDir]
  name := by
    have hnameLen := he.nameLen
    rw [nameBytes] at hnameLen
    rw [dirEntryBytes] at hsame
    refine (Mem.peek_congr fun k hk => ?_).trans h.name
    have hname := he.name
    exact hsame _ (by omega) (by omega) (by omega)

/-! ## The loop -/

namespace Mount

/-- Records are written from the next one on, and as many as there is room for. -/
theorem fillEntries_outside (hx : x < start + written * dirEntryBytes ∨
    start + maxEntries * dirEntryBytes ≤ x) :
    (fs.fillEntries start maxEntries es written m v).1 x = m x := by
  induction es generalizing written m v with
  | nil => rfl
  | cons e es ih =>
    rw [fillEntries]
    split
    · rename_i hroom
      have hnext : (written + 1) * dirEntryBytes ≤ maxEntries * dirEntryBytes :=
        Nat.mul_le_mul_right _ hroom
      rw [Nat.succ_mul] at hnext
      have hrecord : putEntry (start + written * dirEntryBytes) e m x = m x :=
        putEntry_outside (by omega)
      have hsize : 8 ≤ dirEntryBytes := by decide
      simp only
      split
      · exact hrecord
      · rw [ih (by rw [Nat.succ_mul]; omega), Mem.store_of_not_mem (by omega)]
        exact hrecord
    · rfl

/-- Every entry that there is room for gets its record. -/
theorem fillEntries_spec (start maxEntries written : Nat) (m : Mem) (hsized : ∀ e ∈ es, e.Sized)
    (hslots : ∀ e ∈ es, fs.HasSlot v e.entryInode)
    (t : Nat) : ∃ m' u, fs.fillEntries start maxEntries es written m (v.after t) =
        (m', .ok (written + min es.length (maxEntries - written), v.after u)) ∧
      ∀ k (hk : k < es.length), written + k < maxEntries →
        HoldsEntry m' (start + (written + k) * dirEntryBytes) es[k] := by
  induction es generalizing written m t with
  | nil => exact ⟨m, t, by simp [fillEntries], by simp⟩
  | cons e es ih =>
    obtain ⟨he, hsized⟩ := List.forall_mem_cons.1 hsized
    obtain ⟨hslot, hslots⟩ := List.forall_mem_cons.1 hslots
    by_cases hroom : written < maxEntries
    · obtain ⟨ino, u, hread⟩ := hslot.readInode t
      generalize hm₁ : (putEntry (start + written * dirEntryBytes) e m).store
        (start + written * dirEntryBytes + 4) 4 ino.inodeSizeLowBits = m₁
      obtain ⟨m', w, hrest, hholds⟩ := ih (written + 1) m₁ hsized hslots u
      have hfill : fs.fillEntries start maxEntries (e :: es) written m (v.after t) =
          fs.fillEntries start maxEntries es (written + 1) m₁ (v.after u) := by
        rw [fillEntries, if_pos hroom]
        simp only [hread, hm₁]
      refine ⟨m', w, ?_, fun k hk hin => ?_⟩
      · rw [hfill, hrest, List.length_cons,
          show written + 1 + min es.length (maxEntries - (written + 1)) =
            written + min (es.length + 1) (maxEntries - written) by omega]
      · cases k with
        | zero =>
          rw [Nat.add_zero, List.getElem_cons_zero]
          -- what is written behind the record leaves it alone
          refine (putEntry_holds (start + written * dirEntryBytes) m he).congr he
            fun x hlo hhi hsize => ?_
          have hkept : m' x = m₁ x := by
            have houtside : (fs.fillEntries start maxEntries es (written + 1) m₁ (v.after u)).1 x =
                m₁ x := fillEntries_outside (.inl (by rw [Nat.succ_mul]; omega))
            rwa [hrest] at houtside
          rw [hkept, ← hm₁, Mem.store_of_not_mem (by omega)]
        | succ k =>
          have hrecord := hholds k (by simpa using hk) (by omega)
          rwa [show written + 1 + k = written + (k + 1) by omega] at hrecord
    · refine ⟨m, t, ?_, fun k hk hin => by omega⟩
      rw [fillEntries, if_neg hroom, show maxEntries - written = 0 by omega, Nat.min_zero,
        Nat.add_zero]

/-- Where all entries get their records, the inodes of all have been read. -/
theorem hasSlot_of_fillEntries (hr : fs.Reliable)
    (h : fs.fillEntries start maxEntries es written m (v.after t) = (m', .ok (n, v')))
    (hall : written + es.length ≤ n) : ∀ e ∈ es, fs.HasSlot v e.entryInode := by
  induction es generalizing written m t with
  | nil => simp
  | cons e es ih =>
    rw [List.length_cons] at hall
    rw [fillEntries] at h
    split at h
    · simp only at h
      split at h
      · cases h
      · rename_i ino w hread
        obtain ⟨u, rfl⟩ := readInode_after hread
        exact List.forall_mem_cons.2 ⟨hasSlot_of_readInode hr hread, ih h (by omega)⟩
    · cases h
      omega

theorem fillEntries_after
    (h : fs.fillEntries start maxEntries es written m (v.after t) = (m', .ok (n, v'))) :
    ∃ u, v' = v.after u := by
  induction es generalizing written m t with
  | nil =>
    cases h
    exact ⟨t, rfl⟩
  | cons e es ih =>
    rw [fillEntries] at h
    split at h
    · simp only at h
      split at h
      · cases h
      · rename_i ino w hread
        obtain ⟨u, rfl⟩ := readInode_after hread
        exact ih h
    · cases h
      exact ⟨t, rfl⟩

/-! ## The call -/

/-- Whatever the call is given, it writes inside its buffer only. -/
theorem syscallReaddir_outside (hx : x < start ∨ start + bufLen ≤ x) :
    (fs.syscallReaddir path start bufLen m v).1 x = m x := by
  have hroom : bufLen / dirEntryBytes * dirEntryBytes ≤ bufLen := Nat.div_mul_le_self _ _
  rw [syscallReaddir]
  split
  · rfl
  · rfl
  · split
    · rfl
    · split
      · rfl
      · rfl
      · exact fillEntries_outside (by omega)

/-- The fields behind the name stay as they have to be for a directory to be listed. -/
def PathFits (path : List UInt8) : Prop := path.length < nodeBytes ∧ path.length ≠ 260

theorem type_ne_zero (hdir : dir.isDir = true) : dir.inodeTypeAndPermissions ≠ 0 := by
  intro hzero
  rw [Inode.isDir, hzero] at hdir
  cases hdir

theorem openedNode_isDir {stale : Mem} (hpath : 0 ∉ path) (hdir : dir.isDir = true) :
    (openedNode stale path dir).isDir = true ↔ path.length ≠ 260 := by
  rcases Nat.lt_trichotomy path.length 260 with hlt | heq | hgt
  · rw [openedNode.isDir_of_lt hlt]
    exact iff_of_true hdir hlt.ne
  · rw [openedNode.isDir_of_eq heq]
    exact iff_of_false Bool.false_ne_true (not_not_intro heq)
  · exact iff_of_true (openedNode.isDir_of_gt hpath hgt) hgt.ne'

/-- What is left of the call once the directory has been listed. -/
theorem syscallReaddir_eq (hpath : 0 ∉ path) (hfits : PathFits path)
    (hwalk : fs.resolvePath path v = .ok (dir, v')) (hdir : dir.isDir = true) {w : Volume}
    (hlist : fs.listDir dir v' = .ok (some es, w)) : fs.syscallReaddir path start bufLen m v =
      let r := fs.fillEntries start (bufLen / dirEntryBytes) es 0 m w
      (r.1, r.2.map fun p => ((p.1 : Int), p.2)) := by
  have hopen : vfsOpen nodeBytes (fs.stale v.transfers) (some fs) path v =
      .ok (some (openedNode (fs.stale v.transfers) path dir), v') :=
    (ext2Open_some _ _ hwalk (type_ne_zero hdir)).trans (if_pos hfits.1)
  have hlist' : fs.listDir (openedNode (fs.stale v.transfers) path dir).fsSpecific v' =
      .ok (some es, w) := hlist
  rw [syscallReaddir, hopen]
  simp only [(openedNode_isDir hpath hdir).2 hfits.2, Bool.not_true, Bool.false_eq_true, if_false,
    hlist']

/-- A path of 260 bytes ends where the node says whether it is a directory. -/
theorem syscallReaddir_spoiled (hwalk : fs.resolvePath path v = .ok (dir, v'))
    (hdir : dir.isDir = true) (hlen : path.length = 260) :
    fs.syscallReaddir path start bufLen m v = (m, .ok (-1, v')) := by
  have hopen : vfsOpen nodeBytes (fs.stale v.transfers) (some fs) path v =
      .ok (some (openedNode (fs.stale v.transfers) path dir), v') :=
    (ext2Open_some _ _ hwalk (type_ne_zero hdir)).trans (if_pos (hlen.trans_lt (by decide)))
  rw [syscallReaddir, hopen]
  simp only [openedNode.isDir_of_eq hlen, Bool.not_false, if_true]

/-- A path that does not fit is not listed. -/
theorem pathFits_of_syscallReaddir (hwalk : fs.resolvePath path v = .ok (dir, v'))
    (hdir : dir.isDir = true) {w : Volume} {k : Int}
    (h : fs.syscallReaddir path start bufLen m v = (m', .ok (k, w))) (hk : 0 ≤ k) :
    PathFits path := by
  refine ⟨?_, fun hlen => ?_⟩
  · by_contra hlong
    have hopen : vfsOpen nodeBytes (fs.stale v.transfers) (some fs) path v = .error .wild :=
      (ext2Open_some _ _ hwalk (type_ne_zero hdir)).trans (if_neg hlong)
    rw [syscallReaddir, hopen] at h
    cases h
  · rw [syscallReaddir_spoiled hwalk hdir hlen] at h
    cases h
    omega

/-- The entries that there is room for are put into the buffer. -/
theorem syscallReaddir_spec (start bufLen : Nat) (m : Mem) (hpath : 0 ∉ path)
    (hfits : PathFits path) (hlists : fs.Lists v path es)
    (hslots : ∀ e ∈ es, fs.HasSlot v e.entryInode) (t : Nat) :
    ∃ m' u, fs.syscallReaddir path start bufLen m (v.after t) =
        (m', .ok ((min es.length (bufLen / dirEntryBytes) : Nat), v.after u)) ∧
      ∀ k (hk : k < es.length), k < bufLen / dirEntryBytes →
        HoldsEntry m' (start + k * dirEntryBytes) es[k] := by
  obtain ⟨dir, u, w, hwalk, hdir, hlist⟩ := hlists t
  obtain ⟨m', x, hfill, hholds⟩ := fillEntries_spec start (bufLen / dirEntryBytes) 0 m
    (listDir_sized hlist) hslots w
  rw [Nat.zero_add, Nat.sub_zero] at hfill
  refine ⟨m', x, ?_, fun k hk hin => ?_⟩
  · rw [syscallReaddir_eq hpath hfits hwalk hdir hlist, hfill]
    rfl
  · have hrecord := hholds k hk (by omega)
    rwa [Nat.zero_add] at hrecord

/-- Where the call returns a number of entries, it has listed them, and if these are all, their
inodes have slots. -/
theorem of_syscallReaddir (hr : fs.Reliable) (hpath : 0 ∉ path) (hlists : fs.Lists v path es)
    {k : Int} (h : fs.syscallReaddir path start bufLen m (v.after t) = (m', .ok (k, v')))
    (hk : 0 ≤ k) : PathFits path ∧ (∃ u, v' = v.after u) ∧
      (k = es.length → ∀ e ∈ es, fs.HasSlot v e.entryInode) := by
  obtain ⟨dir, u, w, hwalk, hdir, hlist⟩ := hlists t
  have hfits := pathFits_of_syscallReaddir hwalk hdir h hk
  rw [syscallReaddir_eq hpath hfits hwalk hdir hlist] at h
  generalize hfill : fs.fillEntries start (bufLen / dirEntryBytes) es 0 m (v.after w) = r at h
  obtain ⟨m₁, r⟩ := r
  cases r with
  | error fault => cases h
  | ok p =>
    obtain ⟨n, w'⟩ := p
    cases h
    refine ⟨hfits, fillEntries_after hfill, fun hall => hasSlot_of_fillEntries hr hfill ?_⟩
    omega

end Mount

end Kaku
