-- SUMMARY: Listing a directory and finding a name in it, against the records that are in use.
import Mathlib.Algebra.Group.Basic
import Mathlib.Data.List.Find
import Mathlib.Data.UInt
import Kaku.Fs.Dir

/-!
# Listing and lookup

`fs_ext2_list_dir` and `__fs_ext2_find_in_dir` of `fs/src/ext2.c`, and `kstrcmp` of
`lib/src/string.h`. A record whose inode is 0 is not in use, whatever name it has.
-/

namespace Kaku

/-! ## C strings -/

/-- A `char` as the `uint32_t` it is converted to. -/
def charBits (c : UInt8) : UInt32 := c.toInt8.toInt32.toUInt32

/-- `kstrcmp`, of strings that are followed by a zero byte. -/
def kstrcmp : List UInt8 → List UInt8 → UInt32
  | [], second => charBits 0 - charBits (second.headD 0)
  | c :: first, second =>
    if c ≠ 0 ∧ c = second.headD 0 then kstrcmp first second.tail
    else charBits c - charBits (second.headD 0)

/-! ## Entries -/

/-- `fs_ext2_entry`, with the bytes of its name in front of the zero byte that
`fs_ext2_list_dir` puts behind them. -/
structure Entry where
  entryInode : Nat
  entrySize : Nat
  entryNameLen : Nat
  entryType : Nat
  entryName : List UInt8

/-- The record at an offset of a block. -/
def entryAt (buf : Mem) (o : Nat) : Entry where
  entryInode := entryInode buf o
  entrySize := entrySize buf o
  entryNameLen := entryNameLen buf o
  entryType := buf.load (o + 7) 1
  entryName := entryName buf o

namespace Inode

def isDir (inode : Inode) : Bool := inode.inodeTypeAndPermissions &&& 0xf000 == 0x4000

def isFile (inode : Inode) : Bool := inode.inodeTypeAndPermissions &&& 0xf000 == 0x8000

end Inode

namespace Mount

/-- `kmemcpy` from the buffer. -/
def peekBytes (fs : Mount) (buf : Mem) (a n : Nat) : K (List UInt8) :=
  if a + n ≤ fs.blockSize then .ok ((List.range n).map fun k => buf (a + k)) else .error .wild

/-- The loop over the records of a block. As in `lastEntry` the fuel runs out only where
the loop of the source stands still. -/
def listBlk (fs : Mount) (buf : Mem) : Nat → Nat → K (List Entry)
  | 0, _ => .error .hang
  | fuel + 1, offset =>
    if offset < fs.blockSize then do
      let inode ← fs.peek buf offset 4
      let size ← fs.peek buf (offset + 4) 2
      let nameLen ← fs.peek buf (offset + 6) 1
      let type ← fs.peek buf (offset + 7) 1
      let name ← fs.peekBytes buf (offset + 8) nameLen
      let rest ← fs.listBlk buf fuel (offset + size)
      pure (⟨inode, size, nameLen, type, name⟩ :: rest)
    else pure []

/-- The loop over the blocks, with how many are left and the index of the next. -/
def listBlks (fs : Mount) (inode : Inode) : Nat → Nat → Volume → K (Option (List Entry) × Volume)
  | 0, _, v => pure (some [], v)
  | left + 1, i, v =>
    let (blk, v) := fs.getBlockPtr inode i v
    let (ok, buf, v) := fs.readBlk blk v
    if !ok then pure (none, v)
    else do
      let entries ← fs.listBlk buf (fs.blockSize + 1) 0
      let (rest, v) ← fs.listBlks inode left (i + 1) v
      pure (rest.map (entries ++ ·), v)

def listDir (fs : Mount) (inode : Inode) (v : Volume) : K (Option (List Entry) × Volume) :=
  if !inode.isDir then pure (none, v) else fs.listBlks inode (fs.nbBlocks inode) 0 v

def findInDir (fs : Mount) (dir : Inode) (name : List UInt8) (v : Volume) : K (Nat × Volume) := do
  match ← fs.listDir dir v with
  | (none, v) => pure (0, v)
  | (some entries, v) =>
    match entries.find? fun e => kstrcmp name e.entryName == 0 with
    | some e => pure (e.entryInode, v)
    | none => pure (0, v)

end Mount

/-! ## What listing and lookup leave alone -/

namespace Mount

variable {fs : Mount} {v v' : Volume} {dir : Inode} {i left n : Nat} {name : List UInt8}
  {found : Option (List Entry)}

theorem listBlks_after (h : fs.listBlks dir left i v = .ok (found, v')) : ∃ t, v' = v.after t := by
  induction left generalizing i v v' found with
  | zero =>
    cases h
    exact ⟨_, rfl⟩
  | succ left ih =>
    obtain ⟨t, hptr⟩ := fs.getBlockPtr_after dir i v
    have hread (b) : (fs.readBlk b (v.after t)).2.2 = v.after (t + 1) := rfl
    rw [listBlks] at h
    simp only [hptr, hread] at h
    split at h
    · cases h
      exact ⟨_, rfl⟩
    · obtain ⟨entries, -, h⟩ := bind_eq_ok.1 h
      obtain ⟨⟨rest, w⟩, hrest, h⟩ := bind_eq_ok.1 h
      obtain ⟨u, hw⟩ := ih hrest
      cases h
      exact ⟨u, hw⟩

theorem listDir_after (h : fs.listDir dir v = .ok (found, v')) : ∃ t, v' = v.after t := by
  rw [listDir] at h
  split at h
  · cases h
    exact ⟨_, rfl⟩
  · exact listBlks_after h

theorem findInDir_after (h : fs.findInDir dir name v = .ok (n, v')) : ∃ t, v' = v.after t := by
  rw [findInDir] at h
  obtain ⟨⟨found, w⟩, hlist, h⟩ := bind_eq_ok.1 h
  obtain ⟨t, rfl⟩ := listDir_after hlist
  refine ⟨t, ?_⟩
  cases found with
  | none =>
    cases h
    rfl
  | some entries =>
    simp only at h
    split at h <;> cases h <;> rfl

end Mount

/-! ## Well-formed directories -/

/-- Records tile every block of the directory; `records i` are the offsets of those of
block `i`. -/
structure Entries (fs : Mount) (v : Volume) (dir : Inode) where
  records : Nat → List Nat
  isDir : dir.isDir = true
  mapped : ∀ i < fs.nbBlocks dir, v.blockPtr fs dir i ≠ 0
  wellFormed : ∀ i < fs.nbBlocks dir,
    WellFormedBlk fs (v.blk fs (v.blockPtr fs dir i)) (records i)

namespace Entries

variable {fs : Mount} {v : Volume} {dir : Inode}

/-- The inodes and names of all records, in order. -/
def listing (d : Entries fs v dir) : List (Nat × List UInt8) :=
  (List.range (fs.nbBlocks dir)).flatMap fun i =>
    links (v.blk fs (v.blockPtr fs dir i)) (d.records i)

/-- The records that are in use. -/
def live (d : Entries fs v dir) : List (Nat × List UInt8) :=
  d.listing.filter fun e => e.1 ≠ 0

/-- The inode of the first record with a name, and 0 if there is none. -/
def firstOf (es : List (Nat × List UInt8)) (name : List UInt8) : Nat :=
  ((es.find? fun e => e.2 = name).map Prod.fst).getD 0

/-- Listing and lookup see the records in use, and no others. -/
structure Seen (d : Entries fs v dir) : Prop where
  lists : ∃ es v', fs.listDir dir v = .ok (some es, v') ∧
    es.map (fun e => (e.entryInode, e.entryName)) = d.live
  finds : ∀ name : List UInt8, 0 ∉ name → ∃ v',
    fs.findInDir dir name v = .ok (firstOf d.live name, v')

end Entries

variable {fs : Mount} {v v' : Volume} {dir : Inode} {buf buf' : Mem} {a o fuel left i : Nat}
  {os : List Nat} {s t name : List UInt8}

/-! ## Comparing names -/

theorem charBits_injective {c d : UInt8} (h : charBits c = charBits d) : c = d := by
  have hback := congrArg (fun x : UInt32 => x.toInt32.toInt8.toUInt8) h
  simpa [charBits] using hback

theorem charBits_sub_ne_zero {c d : UInt8} (h : c ≠ d) : charBits c - charBits d ≠ 0 := by
  intro hzero
  exact h (charBits_injective (sub_eq_zero.1 hzero))

/-- Strings without zero bytes compare equal if they are equal. -/
theorem kstrcmp_eq_zero (hs : 0 ∉ s) (ht : 0 ∉ t) : kstrcmp s t = 0 ↔ s = t := by
  induction s generalizing t with
  | nil =>
    cases t with
    | nil => exact iff_of_true (sub_self _) rfl
    | cons d t =>
      refine iff_of_false (charBits_sub_ne_zero ?_) (List.cons_ne_nil d t).symm
      rintro rfl
      exact ht List.mem_cons_self
  | cons c s ih =>
    have hc : c ≠ 0 := by
      rintro rfl
      exact hs List.mem_cons_self
    cases t with
    | nil =>
      rw [kstrcmp, List.headD_nil, if_neg fun h => hc h.2]
      exact iff_of_false (charBits_sub_ne_zero hc) (List.cons_ne_nil c s)
    | cons d t =>
      rw [kstrcmp, List.headD_cons, List.tail_cons]
      rcases eq_or_ne c d with rfl | hne
      · rw [if_pos ⟨hc, rfl⟩, ih (fun h => hs (List.mem_cons_of_mem c h))
          fun h => ht (List.mem_cons_of_mem c h), List.cons_inj_right]
      · rw [if_neg fun h => hne h.2]
        exact iff_of_false (charBits_sub_ne_zero hne) fun h => hne (List.cons.inj h).1

/-! ## Listing -/

namespace WellFormedBlk

/-- The loop over records that tile the block visits each of them. -/
theorem listBlk (h : Strides (entrySize buf) a fs.blockSize os)
    (hnamed : ∀ o ∈ os, 8 + entryNameLen buf o ≤ entrySize buf o) (hfuel : os.length < fuel) :
    fs.listBlk buf fuel a = .ok (os.map (entryAt buf)) := by
  generalize hend : fs.blockSize = e at h
  induction h generalizing fuel with
  | @nil b =>
    cases fuel with
    | zero => cases hfuel
    | succ fuel =>
      rw [Mount.listBlk, if_neg (by omega)]
      rfl
  | @cons a b os hpos htail ih =>
    cases fuel with
    | zero => cases hfuel
    | succ fuel =>
      have hle := htail.le
      have hname := hnamed a List.mem_cons_self
      have hnameLen : buf.load (a + 6) 1 = entryNameLen buf a := rfl
      have hsize : buf.load (a + 4) 2 = entrySize buf a := rfl
      rw [Mount.listBlk, if_pos (by omega), Mount.peek_of_le (by omega), ok_bind,
        Mount.peek_of_le (by omega), ok_bind, Mount.peek_of_le (by omega), ok_bind,
        Mount.peek_of_le (by omega), ok_bind, hnameLen, Mount.peekBytes, if_pos (by omega), ok_bind,
        hsize, ih (fun o ho => hnamed o (List.mem_cons_of_mem a ho)) (by simpa using hfuel) hend]
      rfl

theorem entryAt_congr (h : WellFormedBlk fs buf os) (hsame : ∀ x < fs.blockSize, buf' x = buf x)
    (ho : o ∈ os) : entryAt buf' o = entryAt buf o := by
  obtain ⟨hsize, hlen, hinode, hname⟩ := h.record_congr hsame ho
  have hfits := h.mem ho
  have htype : buf'.load (o + 7) 1 = buf.load (o + 7) 1 := by
    apply Mem.load_congr
    intro x hlo hhi
    exact hsame x (by omega)
  rw [entryAt, entryAt, hsize, hlen, hinode, hname, htype]

end WellFormedBlk

namespace Entries

/-- Everything that a directory has records for, in order. -/
def entries (d : Entries fs v dir) : List Entry :=
  (List.range (fs.nbBlocks dir)).flatMap fun i =>
    (d.records i).map (entryAt (v.blk fs (v.blockPtr fs dir i)))

theorem entries_map (d : Entries fs v dir) :
    d.entries.map (fun e => (e.entryInode, e.entryName)) = d.listing := by
  rw [entries, listing, List.map_flatMap]
  simp only [List.map_map]
  rfl

section Reading

variable (hg : fs.Good) (d : Entries fs v dir)
include hg

/-- The loop over the blocks reads them one after the other. -/
theorem listBlks (i left : Nat) (hi : i + left ≤ fs.nbBlocks dir) (u : Nat) :
    ∃ t, fs.listBlks dir left i (v.after u) = .ok (some ((List.range' i left).flatMap fun j =>
      (d.records j).map (entryAt (v.blk fs (v.blockPtr fs dir j)))), v.after t) := by
  induction left generalizing i u with
  | zero => exact ⟨u, rfl⟩
  | succ left ih =>
    have hwf := d.wellFormed i (by omega)
    obtain ⟨t, hptr⟩ := hg.getBlockPtr_eq dir i (v.after u)
    obtain ⟨t', hrest⟩ := ih (i + 1) (by omega) (t + 1)
    have hread : fs.readBlk (v.blockPtr fs dir i) (v.after t) = _ := hg.readBlk
    have hsame (x) (hx : x < fs.blockSize) : (fs.stale t).blit 0 fs.blockSize
        (v.blk fs (v.blockPtr fs dir i)) x = v.blk fs (v.blockPtr fs dir i) x := by
      rw [Mem.blit_of_mem (by omega) (by omega), Nat.sub_zero]
    have hbuf := hwf.congr hsame
    refine ⟨t', ?_⟩
    rw [Mount.listBlks, hptr]
    simp only [Volume.after_blockPtr, Volume.after_after, hread, Bool.not_true, Bool.false_eq_true,
      if_false, Volume.after_transfers, Volume.after_blk]
    rw [WellFormedBlk.listBlk hbuf.tiled hbuf.named (Nat.lt_succ_of_le hbuf.tiled.length_le), ok_bind]
    have hblk : (d.records i).map (entryAt ((fs.stale t).blit 0 fs.blockSize
        (v.blk fs (v.blockPtr fs dir i)))) =
        (d.records i).map (entryAt (v.blk fs (v.blockPtr fs dir i))) :=
      List.map_congr_left fun o ho => hwf.entryAt_congr hsame ho
    rw [show ({ v.after t with transfers := t + 1 } : Volume) = v.after (t + 1) from rfl, hrest,
      ok_bind, hblk, List.range'_succ, List.flatMap_cons]
    rfl

theorem listDir (u : Nat) :
    ∃ t, fs.listDir dir (v.after u) = .ok (some d.entries, v.after t) := by
  obtain ⟨t, hlist⟩ := d.listBlks hg 0 (fs.nbBlocks dir) (by omega) u
  refine ⟨t, ?_⟩
  rw [Mount.listDir, d.isDir, Bool.not_true, if_neg Bool.false_ne_true, hlist, entries,
    List.range_eq_range']

/-- The lookup stops at the first record of that name, in use or not. -/
theorem findInDir (name : List UInt8) (u : Nat) :
    ∃ t, fs.findInDir dir name (v.after u) =
      .ok (((d.entries.find? fun e => kstrcmp name e.entryName == 0).map Entry.entryInode).getD 0,
        v.after t) := by
  obtain ⟨t, hlist⟩ := d.listDir hg u
  refine ⟨t, ?_⟩
  rw [Mount.findInDir, hlist, ok_bind]
  simp only
  cases d.entries.find? fun e => kstrcmp name e.entryName == 0 <;> rfl

end Reading

/-- Among records in use, comparing the names finds the name. -/
theorem find_eq_firstOf (d : Entries fs v dir) (hlive : ∀ e ∈ d.listing, 0 ∉ e.2)
    (hname : 0 ∉ name) :
    ((d.entries.find? fun e => kstrcmp name e.entryName == 0).map Entry.entryInode).getD 0 =
      firstOf d.listing name := by
  have hpred : d.entries.find? (fun e => kstrcmp name e.entryName == 0) =
      d.entries.find? fun e => e.entryName = name := by
    apply List.find?_congr
    intro e he
    have hmem : (e.entryInode, e.entryName) ∈ d.listing := by
      rw [← d.entries_map]
      exact List.mem_map_of_mem he
    have hzero := kstrcmp_eq_zero hname (hlive _ hmem)
    rw [Bool.eq_iff_iff, beq_iff_eq, hzero, decide_eq_true_iff]
    exact eq_comm
  rw [hpred, firstOf, ← d.entries_map, List.find?_map]
  cases hfind : d.entries.find? fun e => e.entryName = name <;> simp [hfind]

end Entries

def Directory.toEntries (d : Directory fs v dir) (hdir : dir.isDir = true) : Entries fs v dir :=
  ⟨d.records, hdir, d.mapped, d.wellFormed⟩

/-- `.` and `..`. -/
def namedVolume : Volume :=
  let v := recordVolume [(0, 12, 1), (12, 1012, 2)]
  { v with disk := (v.disk.store 5128 1 0x2E).store 5140 2 0x2E2E }

def namedEntries : Entries kibMount namedVolume oneBlockInode :=
  (Directory.ofBlock (show WellFormedBlk kibMount _ [0, 12] by decide)).toEntries
    (by decide)

/-- `.`, `..`, a deleted `a`, and an `a` that is in use. -/
def deletedVolume : Volume :=
  let v := recordVolume [(0, 12, 1), (12, 12, 2), (24, 12, 1), (36, 988, 1)]
  { v with
    disk := (((((v.disk.store 5128 1 0x2E).store 5140 2 0x2E2E).store 5152 1 0x61).store
      5144 4 0).store 5164 1 0x61).store 5156 4 12 }

def deletedEntries : Entries kibMount deletedVolume oneBlockInode :=
  (Directory.ofBlock (show WellFormedBlk kibMount _ [0, 12, 24, 36] by decide)).toEntries
    (by decide)

theorem kibMount_good : kibMount.Good := ⟨fun _ _ => rfl, kibMount_sized, by decide⟩

end Kaku
