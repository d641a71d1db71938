-- SUMMARY: Directory blocks: the records that tile them, and what linking a new name does to a directory.
import Mathlib.Data.List.GetD
import Kaku.Fs.Inode
import Kaku.Lib.Except
import Kaku.Lib.Records

/-!
# Directories

`fs/src/ext2_entry.h`, and the last part of `fs_ext2_create_file`. The records of
a directory block fill it from end to end, so a new record has to be carved from
what the last one does not use.
-/

namespace Kaku

/-! ## Records -/

def entryInode (buf : Mem) (o : Nat) : Nat := buf.load o 4

def entrySize (buf : Mem) (o : Nat) : Nat := buf.load (o + 4) 2

def entryNameLen (buf : Mem) (o : Nat) : Nat := buf.load (o + 6) 1

def entryName (buf : Mem) (o : Nat) : List UInt8 :=
  (List.range (entryNameLen buf o)).map fun k => buf (o + 8 + k)

/-- `CEIL_DIV(8 + entry_name_len, 4) * 4`: what the header and the name take up. -/
def entryUsed (buf : Mem) (o : Nat) : Nat := ceilDiv (8 + entryNameLen buf o) 4 * 4

/-! ## Linking a name -/

namespace Mount

/-- The loop over the records of a block, which remembers the one that ends where
the block ends. Every record but an empty one brings it closer to that end, so
that with a fuel of more than `blockSize` it runs out only where the loop of the
source stands still. -/
def lastEntry (fs : Mount) (buf : Mem) : Nat → Nat → Option Nat → K (Option Nat)
  | 0, _, _ => .error .hang
  | fuel + 1, offset, last =>
    if offset < fs.blockSize then do
      let size ← fs.peek buf (offset + 4) 2
      fs.lastEntry buf fuel (offset + size)
        (if size + offset = fs.blockSize then some offset else last)
    else pure last

/-- Puts a record behind the last one. -/
def addEntry (fs : Mount) (buf : Mem) (inodeId : Nat) (filename : List UInt8) : K Mem := do
  match ← fs.lastEntry buf (fs.blockSize + 1) 0 none with
  -- `last_entry` is read without ever having been set
  | none => .error .wild
  | some lastOffset =>
    let lastNameLen ← fs.peek buf (lastOffset + 6) 1
    let buf ← fs.poke buf (lastOffset + 4) 2 (ceilDiv (8 + lastNameLen) 4 * 4)
    let lastSize ← fs.peek buf (lastOffset + 4) 2
    let newEntry := lastOffset + lastSize
    let buf ← fs.poke buf (newEntry + 4) 2 (sub32 fs.blockSize newEntry)
    let buf ← fs.poke buf (newEntry + 6) 1 filename.length
    let buf ← fs.poke buf newEntry 4 inodeId
    let buf ← fs.poke buf (newEntry + 7) 1 1
    let newNameLen ← fs.peek buf (newEntry + 6) 1
    fs.pokeBytes buf (newEntry + 8) (filename.take newNameLen)

/-- `fs_ext2_create_file` from the point on where it has the inode of the parent. -/
def linkEntry (fs : Mount) (parent : Inode) (inodeId : Nat) (filename : List UInt8)
    (v : Volume) : K Volume :=
  let (lastBlk, v) := fs.getBlockPtr parent (sub32 (fs.nbBlocks parent) 1) v
  if lastBlk = 0 then pure v
  else
    let (ok, buf, v) := fs.readBlk lastBlk v
    if !ok then pure v
    else do
      let buf ← fs.addEntry buf inodeId filename
      pure (fs.writeBlk lastBlk buf v).2

end Mount

/-! ## Well-formed directories -/

/-- The records at these offsets tile the block, and each has room for its name. -/
structure WellFormedBlk (fs : Mount) (buf : Mem) (os : List Nat) : Prop where
  tiled : Strides (entrySize buf) 0 fs.blockSize os
  aligned : ∀ o ∈ os, 4 ∣ entrySize buf o
  named : ∀ o ∈ os, 8 + entryNameLen buf o ≤ entrySize buf o

instance (fs : Mount) (buf : Mem) (os : List Nat) : Decidable (WellFormedBlk fs buf os) :=
  decidable_of_iff (Strides (entrySize buf) 0 fs.blockSize os ∧
    (∀ o ∈ os, 4 ∣ entrySize buf o) ∧ ∀ o ∈ os, 8 + entryNameLen buf o ≤ entrySize buf o)
    ⟨fun h => ⟨h.1, h.2.1, h.2.2⟩, fun h => ⟨h.tiled, h.aligned, h.named⟩⟩

/-- A directory: its blocks are on the drive, share no sector with one another or
with the indirect block, and are well formed. `records i` are the offsets of the
records of block `i`. -/
structure Directory (fs : Mount) (v : Volume) (parent : Inode) where
  records : Nat → List Nat
  nonempty : 0 < fs.nbBlocks parent
  mapped : ∀ i < fs.nbBlocks parent, v.blockPtr fs parent i ≠ 0
  apart : ∀ i < fs.nbBlocks parent, ∀ j < fs.nbBlocks parent, i ≠ j →
    fs.Apart (v.blockPtr fs parent i) (v.blockPtr fs parent j)
  indirectApart : 12 < fs.nbBlocks parent → ∀ i < fs.nbBlocks parent,
    fs.Apart (v.blockPtr fs parent i) parent.inodeSinglyIndirectBlkPtr
  wellFormed : ∀ i < fs.nbBlocks parent,
    WellFormedBlk fs (v.blk fs (v.blockPtr fs parent i)) (records i)

/-- The inodes and names that the records at these offsets link. -/
def links (buf : Mem) (os : List Nat) : List (Nat × List UInt8) :=
  os.map fun o => (entryInode buf o, entryName buf o)

namespace Directory

variable {fs : Mount} {v : Volume} {parent : Inode}

def blk (_ : Directory fs v parent) (i : Nat) : Mem := v.blk fs (v.blockPtr fs parent i)

/-- The inodes and names in the directory, in order. -/
def listing (d : Directory fs v parent) : List (Nat × List UInt8) :=
  (List.range (fs.nbBlocks parent)).flatMap fun i => links (d.blk i) (d.records i)

/-- Linking the name returns, with every block of the directory well formed, and the
new name behind those that were there. -/
def Grows (d : Directory fs v parent) (inodeId : Nat) (filename : List UInt8) : Prop :=
  ∃ v', fs.linkEntry parent inodeId filename v = .ok v' ∧
    ∃ d' : Directory fs v' parent, d'.listing = d.listing ++ [(inodeId, filename)]

/-- The last record of the directory leaves room for a record with a name of `n` bytes. -/
def Room (d : Directory fs v parent) (n : Nat) : Prop :=
  ∃ o ∈ (d.records (fs.nbBlocks parent - 1)).getLast?,
    entryUsed (d.blk (fs.nbBlocks parent - 1)) o + (8 + n) ≤
      entrySize (d.blk (fs.nbBlocks parent - 1)) o

end Directory

/-! ## What a record depends on -/

variable {fs : Mount} {v v' : Volume} {parent : Inode} {buf buf' : Mem} {a o n inodeId : Nat}
  {os : List Nat} {last : Option Nat} {filename : List UInt8} {fuel : Nat}

theorem entrySize_lt (buf : Mem) (o : Nat) : entrySize buf o < 65536 := Mem.load_lt

theorem entryNameLen_lt (buf : Mem) (o : Nat) : entryNameLen buf o < 256 := Mem.load_lt

theorem entrySize_congr (h : ∀ x, o + 4 ≤ x → x < o + 6 → buf' x = buf x) :
    entrySize buf' o = entrySize buf o := Mem.load_congr h

/-- The length of a record may change without the rest of it changing. -/
theorem entry_congr {buf buf' : Mem} {o : Nat} (h : ∀ x, o ≤ x → x < o + 8 + entryNameLen buf o →
      (x < o + 4 ∨ o + 6 ≤ x) → buf' x = buf x) :
    entryNameLen buf' o = entryNameLen buf o ∧ entryInode buf' o = entryInode buf o ∧
      entryName buf' o = entryName buf o := by
  have hlen : entryNameLen buf' o = entryNameLen buf o := by
    apply Mem.load_congr
    intro x hlo hhi
    exact h x (by omega) (by omega) (by omega)
  have hinode : entryInode buf' o = entryInode buf o := by
    apply Mem.load_congr
    intro x hlo hhi
    exact h x hlo (by omega) (by omega)
  refine ⟨hlen, hinode, ?_⟩
  rw [entryName, entryName, hlen]
  apply List.map_congr_left
  intro k hk
  have hk := List.mem_range.1 hk
  exact h _ (by omega) (by omega) (by omega)

/-- A record with a name uses its header, its name, and up to three bytes more. -/
theorem entryUsed_bounds (buf : Mem) (o : Nat) : 8 + entryNameLen buf o ≤ entryUsed buf o ∧
    entryUsed buf o < 12 + entryNameLen buf o ∧ 4 ∣ entryUsed buf o := by
  have hlt := entryNameLen_lt buf o
  simp only [entryUsed, ceilDiv, addr32]
  omega

theorem links_congr (h : ∀ o ∈ os, entryInode buf' o = entryInode buf o ∧
    entryName buf' o = entryName buf o) : links buf' os = links buf os := by
  apply List.map_congr_left
  intro o ho
  rw [(h o ho).1, (h o ho).2]

namespace WellFormedBlk

theorem mem (h : WellFormedBlk fs buf os) (ho : o ∈ os) :
    8 + entryNameLen buf o ≤ entrySize buf o ∧ o + entrySize buf o ≤ fs.blockSize :=
  ⟨h.named o ho, (h.tiled.mem ho).2.2⟩

/-- Everything about a record depends on the bytes of the block only. -/
theorem record_congr (h : WellFormedBlk fs buf os) (hsame : ∀ x < fs.blockSize, buf' x = buf x)
    (ho : o ∈ os) : entrySize buf' o = entrySize buf o ∧ entryNameLen buf' o = entryNameLen buf o ∧
      entryInode buf' o = entryInode buf o ∧ entryName buf' o = entryName buf o := by
  have hmem := h.mem ho
  constructor
  · apply entrySize_congr
    intro x hlo hhi
    exact hsame x (by omega)
  · apply Kaku.entry_congr
    intro x hlo hhi _
    exact hsame x (by omega)

theorem congr (h : WellFormedBlk fs buf os) (hsame : ∀ x < fs.blockSize, buf' x = buf x) :
    WellFormedBlk fs buf' os := by
  refine ⟨h.tiled.congr fun o ho => (h.record_congr hsame ho).1, fun o ho => ?_, fun o ho => ?_⟩
  · rw [(h.record_congr hsame ho).1]
    exact h.aligned o ho
  · rw [(h.record_congr hsame ho).1, (h.record_congr hsame ho).2.1]
    exact h.named o ho

theorem links_eq (h : WellFormedBlk fs buf os) (hsame : ∀ x < fs.blockSize, buf' x = buf x) :
    links buf' os = links buf os :=
  links_congr fun _ ho => (h.record_congr hsame ho).2.2

end WellFormedBlk

/-! ## The walk -/

/-- The walk over records that tile the block stops at the last of them. -/
theorem Mount.lastEntry_eq (h : Strides (entrySize buf) a fs.blockSize os)
    (hnamed : ∀ o ∈ os, 8 ≤ entrySize buf o) (hfuel : os.length < fuel) :
    fs.lastEntry buf fuel a last = .ok (os.getLast?.or last) := by
  generalize hend : fs.blockSize = e at h
  induction h generalizing fuel last with
  | @nil b =>
    cases fuel with
    | zero => cases hfuel
    | succ fuel =>
      rw [lastEntry, if_neg (by omega)]
      rfl
  | @cons a b os hpos htail ih =>
    cases fuel with
    | zero => cases hfuel
    | succ fuel =>
      have hle := htail.le
      have hsize := hnamed a List.mem_cons_self
      rw [lastEntry, if_pos (by omega), peek_of_le (by omega)]
      show fs.lastEntry buf fuel (a + entrySize buf a)
        (if entrySize buf a + a = fs.blockSize then some a else last) = _
      rw [ih (fun o ho => hnamed o (List.mem_cons_of_mem a ho)) (by simpa using hfuel) hend]
      cases htail with
      | nil => rw [if_pos (by omega), List.getLast?_nil, Option.none_or, List.getLast?_singleton,
          Option.some_or]
      | @cons _ _ os hpos' htail' =>
        rw [List.getLast?_cons_cons]
        obtain ⟨l, hl⟩ := Option.isSome_iff_exists.1
          (List.getLast?_isSome.2 (List.cons_ne_nil (a + entrySize buf a) os))
        rw [hl, Option.some_or, Option.some_or]

/-! ## One block -/

/-- The block after a record has been carved from the slack of its last one, the
record at offset `o`. -/
def carved (fs : Mount) (buf : Mem) (o inodeId : Nat) (filename : List UInt8) : Mem :=
  let p := o + entryUsed buf o
  ((((((buf.store (o + 4) 2 (entryUsed buf o)).store (p + 4) 2 (fs.blockSize - p)).store
    (p + 6) 1 filename.length).store p 4 inodeId).store (p + 7) 1 1).blit (p + 8) filename.length
    fun k => filename.getD k 0)

theorem carved_of_not_mem {x : Nat} (hx : x < o + entryUsed buf o) (hsize : x < o + 4 ∨ o + 6 ≤ x) :
    carved fs buf o inodeId filename x = buf x := by
  rw [carved, Mem.blit_of_not_mem (by omega), Mem.store_of_not_mem (by omega),
    Mem.store_of_not_mem (by omega), Mem.store_of_not_mem (by omega),
    Mem.store_of_not_mem (by omega), Mem.store_of_not_mem (by omega)]

/-- A word of the new record's header, once the name has been copied behind it. -/
theorem load_blit_name {p q k : Nat} {m : Mem} (h : q + k ≤ p + 8) :
    (m.blit (p + 8) n fun k => filename.getD k 0).load q k = m.load q k := by
  apply Mem.load_congr
  intro x hlo hhi
  exact Mem.blit_of_not_mem (by omega)

theorem entrySize_carved_last : entrySize (carved fs buf o inodeId filename) o = entryUsed buf o := by
  have hused := entryUsed_bounds buf o
  have hlen := entryNameLen_lt buf o
  rw [entrySize, carved, load_blit_name (by omega), Mem.load_store_of_disjoint (by omega),
    Mem.load_store_of_disjoint (by omega), Mem.load_store_of_disjoint (by omega),
    Mem.load_store_of_disjoint (by omega), Mem.load_store_self, Nat.mod_eq_of_lt (by omega)]

/-- The record that has been carved. -/
theorem carved_new {p : Nat} (hp : p = o + entryUsed buf o) (hlen : filename.length < 256)
    (hid : inodeId < 2 ^ 32) (hsize : fs.blockSize < p + 65536) :
    entrySize (carved fs buf o inodeId filename) p = fs.blockSize - p ∧
      entryNameLen (carved fs buf o inodeId filename) p = filename.length ∧
      entryInode (carved fs buf o inodeId filename) p = inodeId ∧
      entryName (carved fs buf o inodeId filename) p = filename := by
  have hname : entryNameLen (carved fs buf o inodeId filename) p = filename.length := by
    rw [entryNameLen, carved, ← hp, load_blit_name (by omega),
      Mem.load_store_of_disjoint (by omega), Mem.load_store_of_disjoint (by omega),
      Mem.load_store_self, Nat.mod_eq_of_lt (by omega)]
  refine ⟨?_, hname, ?_, ?_⟩
  · rw [entrySize, carved, ← hp, load_blit_name (by omega), Mem.load_store_of_disjoint (by omega),
      Mem.load_store_of_disjoint (by omega), Mem.load_store_of_disjoint (by omega),
      Mem.load_store_self, Nat.mod_eq_of_lt (by omega)]
  · rw [entryInode, carved, ← hp, load_blit_name (by omega), Mem.load_store_of_disjoint (by omega),
      Mem.load_store_self, Nat.mod_eq_of_lt (by omega)]
  · apply List.ext_getElem
    · simp [entryName, hname]
    · intro k hk hk'
      simp only [entryName, List.getElem_map, List.getElem_range, carved, ← hp]
      rw [Mem.blit_of_mem (by omega) (by omega), Nat.add_sub_cancel_left, List.getD_eq_getElem]

/-- The records of a block before its last one lie below it. -/
theorem WellFormedBlk.of_concat (h : WellFormedBlk fs buf (os ++ [o])) :
    (∀ q ∈ os, q + entrySize buf q ≤ o) ∧ o + entrySize buf o = fs.blockSize ∧
      entryUsed buf o ≤ entrySize buf o := by
  obtain ⟨hinit, -, hend⟩ := h.tiled.of_concat
  have hlast : o ∈ os ++ [o] := by simp
  have halign := h.aligned o hlast
  have hnamed := h.named o hlast
  have hused := entryUsed_bounds buf o
  exact ⟨fun q hq => (hinit.mem hq).2.2, hend, by omega⟩

/-- A record that is carved where there is room leaves the block well formed, and
links the new name behind the ones that were there. -/
theorem WellFormedBlk.carved (h : WellFormedBlk fs buf (os ++ [o]))
    (hroom : entryUsed buf o + (8 + filename.length) ≤ entrySize buf o)
    (hlen : filename.length < 256) (hid : inodeId < 2 ^ 32) :
    WellFormedBlk fs (carved fs buf o inodeId filename) (os ++ [o, o + entryUsed buf o]) ∧
      links (carved fs buf o inodeId filename) (os ++ [o, o + entryUsed buf o]) =
        links buf (os ++ [o]) ++ [(inodeId, filename)] := by
  obtain ⟨hbelow, hend, -⟩ := h.of_concat
  obtain ⟨hinit, -, -⟩ := h.tiled.of_concat
  have hused := entryUsed_bounds buf o
  have hsizeLt := entrySize_lt buf o
  obtain ⟨hnewSize, hnewLen, hnewInode, hnewName⟩ := carved_new (p := o + entryUsed buf o) rfl hlen
    hid (show fs.blockSize < o + entryUsed buf o + 65536 by omega)
  have hlastSize : entrySize (Kaku.carved fs buf o inodeId filename) o = entryUsed buf o :=
    entrySize_carved_last
  have hlast := entry_congr fun x _ hhi hout =>
    show Kaku.carved fs buf o inodeId filename x = buf x from carved_of_not_mem (by omega) hout
  have hsize (q) (hq : q ∈ os) :
      entrySize (Kaku.carved fs buf o inodeId filename) q = entrySize buf q := by
    have hq' := hbelow q hq
    have hname := h.named q (by simp [hq])
    apply entrySize_congr
    intro x hlo hhi
    exact carved_of_not_mem (by omega) (by omega)
  have hkept (q) (hq : q ∈ os) := entry_congr (o := q) (by
    show ∀ x, q ≤ x → x < q + 8 + entryNameLen buf q → (x < q + 4 ∨ q + 6 ≤ x) →
      Kaku.carved fs buf o inodeId filename x = buf x
    have hq' := hbelow q hq
    have hname := h.named q (by simp [hq])
    intro x _ hhi _
    exact carved_of_not_mem (by omega) (by omega))
  -- the new tiling: the old one up to the last record, which now ends where the new one starts
  have hnew : Strides (entrySize (Kaku.carved fs buf o inodeId filename))
      (o + entryUsed buf o) fs.blockSize [o + entryUsed buf o] := by
    apply Strides.cons
    · omega
    · rw [hnewSize, Nat.add_sub_cancel' (by omega)]
      exact .nil
  have htail : Strides (entrySize (Kaku.carved fs buf o inodeId filename)) o fs.blockSize
      [o, o + entryUsed buf o] := by
    apply Strides.cons
    · omega
    · rw [hlastSize]
      exact hnew
  refine ⟨⟨(hinit.congr hsize).append htail, fun q hq => ?_, fun q hq => ?_⟩, ?_⟩
  · rcases List.mem_append.1 hq with hq | hq
    · rw [hsize q hq]
      exact h.aligned q (by simp [hq])
    rcases List.mem_pair.1 hq with rfl | rfl
    · rw [hlastSize]
      exact hused.2.2
    · have haligned := h.aligned o (by simp)
      rw [hnewSize]
      omega
  · rcases List.mem_append.1 hq with hq | hq
    · rw [hsize q hq, (hkept q hq).1]
      exact h.named q (by simp [hq])
    rcases List.mem_pair.1 hq with rfl | rfl
    · rw [hlastSize, hlast.1]
      exact hused.1
    · rw [hnewSize, hnewLen]
      omega
  · have hold : links (Kaku.carved fs buf o inodeId filename) os = links buf os :=
      links_congr fun q hq => (hkept q hq).2
    simp only [links, List.map_append, List.map_cons, List.map_nil, List.append_assoc,
      List.cons_append, List.nil_append] at hold ⊢
    rw [hold, hlast.2.1, hlast.2.2, hnewInode, hnewName]

theorem WellFormedBlk.lastEntry_eq (h : WellFormedBlk fs buf (os ++ [o])) :
    fs.lastEntry buf (fs.blockSize + 1) 0 none = .ok (some o) := by
  have hcount := h.tiled.length_le
  rw [Mount.lastEntry_eq h.tiled (fun q hq => by have := h.named q hq; omega) (by omega)]
  simp

/-- The part of a name that is copied: its length is kept in one byte. -/
def fitted (filename : List UInt8) : List UInt8 := filename.take (filename.length % 256)

theorem length_fitted : (fitted filename).length = filename.length % 256 := by
  rw [fitted, List.length_take, Nat.min_eq_left (Nat.mod_le _ _)]

theorem fitted_of_lt (h : filename.length < 256) : fitted filename = filename := by
  rw [fitted, Nat.mod_eq_of_lt h, List.take_length]

/-- On a well-formed block `addEntry` succeeds exactly where the last record has
room for the new one. Elsewhere the new record runs over the end of the buffer. -/
theorem WellFormedBlk.addEntry_eq_ok (h : WellFormedBlk fs buf (os ++ [o])) :
    fs.addEntry buf inodeId filename = .ok buf' ↔
      entryUsed buf o + (8 + (fitted filename).length) ≤ entrySize buf o ∧
        Kaku.carved fs buf o inodeId (fitted filename) = buf' := by
  obtain ⟨-, hend, hkept⟩ := h.of_concat
  have hused := entryUsed_bounds buf o
  have hlt := entryNameLen_lt buf o
  have hname : buf.load (o + 6) 1 = entryNameLen buf o := rfl
  have hkeeps : ceilDiv (8 + entryNameLen buf o) 4 * 4 = entryUsed buf o := rfl
  have hlastSize : (buf.store (o + 4) 2 (entryUsed buf o)).load (o + 4) 2 = entryUsed buf o := by
    rw [Mem.load_store_self, Nat.mod_eq_of_lt (by omega)]
  have hnewLen (m : Mem) (p : Nat) : (((m.store (p + 6) 1 filename.length).store p 4
      inodeId).store (p + 7) 1 1).load (p + 6) 1 = (fitted filename).length := by
    rw [Mem.load_store_of_disjoint (by omega), Mem.load_store_of_disjoint (by omega),
      Mem.load_store_self, length_fitted]
    rfl
  have hnewByte (m : Mem) (p : Nat) :
      m.store p 1 filename.length = m.store p 1 (fitted filename).length := by
    rw [length_fitted]
    exact Mem.store_mod.symm
  have hnewName : filename.take (fitted filename).length = fitted filename := by
    rw [length_fitted, fitted]
  have hnewSize : sub32 fs.blockSize (o + entryUsed buf o) =
      fs.blockSize - (o + entryUsed buf o) := sub32_of_le (by omega)
  rw [Mount.addEntry, h.lastEntry_eq, ok_bind]
  simp only [bind_eq_ok, Mount.peek_eq_ok, Mount.poke_eq_ok, Mount.pokeBytes_eq_ok]
  constructor
  · rintro ⟨_, ⟨-, rfl⟩, _, ⟨-, rfl⟩, _, ⟨-, rfl⟩, _, ⟨-, rfl⟩, _, ⟨-, rfl⟩, _, ⟨-, rfl⟩,
      _, ⟨-, rfl⟩, _, ⟨-, rfl⟩, hinside, rfl⟩
    rw [hname, hkeeps, hlastSize, hnewLen, hnewName] at hinside
    refine ⟨by omega, ?_⟩
    rw [hname, hkeeps, hlastSize, hnewLen, hnewName, hnewByte, hnewSize]
    rfl
  · rintro ⟨hroom, rfl⟩
    refine ⟨_, ⟨by omega, rfl⟩, _, ⟨by omega, rfl⟩, _, ⟨by omega, hlastSize⟩, _, ⟨by omega, rfl⟩,
      _, ⟨by omega, rfl⟩, _, ⟨by omega, rfl⟩, _, ⟨by omega, rfl⟩, _, ⟨by omega, hnewLen _ _⟩, ?_⟩
    rw [hnewName, hnewByte, hnewSize]
    exact ⟨by omega, rfl⟩

/-! ## The directory -/

namespace Directory

theorem unique (d : Directory fs v parent) (d' : Directory fs v' parent)
    (hdisk : v'.disk = v.disk) : d'.listing = d.listing := by
  have hptr (i) : v'.blockPtr fs parent i = v.blockPtr fs parent i :=
    Volume.blockPtr_congr fun _ _ x _ => by rw [Volume.blk, Volume.blk, hdisk]
  have hblk (i) : d'.blk i = d.blk i := by
    rw [blk, blk, hptr]
    funext x
    rw [Volume.blk, Volume.blk, hdisk]
  apply List.flatMap_congr
  intro i hi
  have hi := List.mem_range.1 hi
  have htiled' := (d'.wellFormed i hi).tiled
  rw [← blk, hblk] at htiled'
  rw [hblk, htiled'.unique (d.wellFormed i hi).tiled]

/-- A directory ends with a record. -/
theorem exists_last (d : Directory fs v parent) (hs : fs.Sized) :
    ∃ os o, d.records (fs.nbBlocks parent - 1) = os ++ [o] := by
  have hlast := d.wellFormed _ (Nat.sub_lt d.nonempty Nat.one_pos)
  have hne := hlast.tiled.ne_nil hs.pos
  exact ⟨_, _, (List.dropLast_append_getLast hne).symm⟩

theorem room_iff (d : Directory fs v parent) (os : List Nat) (o : Nat)
    (h : d.records (fs.nbBlocks parent - 1) = os ++ [o]) :
    d.Room n ↔ entryUsed (d.blk (fs.nbBlocks parent - 1)) o + (8 + n) ≤
      entrySize (d.blk (fs.nbBlocks parent - 1)) o := by
  simp [Room, h]

/-- The drive after the last block of the directory has been rewritten. -/
def Rewritten (_ : Directory fs v parent) (v' : Volume) (buf : Mem) : Prop :=
  v'.disk = v.disk.blit (fs.blkAddr (v.blockPtr fs parent (fs.nbBlocks parent - 1)))
    fs.blockSize buf

namespace Rewritten

variable {d : Directory fs v parent} {i x : Nat}

theorem blockPtr (h : d.Rewritten v' buf) (hi : i < fs.nbBlocks parent) :
    v'.blockPtr fs parent i = v.blockPtr fs parent i := by
  apply Volume.blockPtr_congr
  intro hindirect _ x hx
  exact Volume.blk_of_apart h (d.indirectApart (by omega) _ (by omega)) hx

theorem blk_of_ne (h : d.Rewritten v' buf) (hi : i < fs.nbBlocks parent)
    (hne : i ≠ fs.nbBlocks parent - 1) (hx : x < fs.blockSize) :
    v'.blk fs (v.blockPtr fs parent i) x = d.blk i x :=
  Volume.blk_of_apart h (d.apart _ (by omega) i hi (by omega)) hx

/-- A well-formed last block, written back, makes a well-formed directory. -/
theorem grow (h : d.Rewritten v' buf) {os' : List Nat} {new : Nat × List UInt8}
    (hwf : WellFormedBlk fs buf os')
    (hlinks : links buf os' =
      links (d.blk (fs.nbBlocks parent - 1)) (d.records (fs.nbBlocks parent - 1)) ++ [new]) :
    ∃ d' : Directory fs v' parent, d'.listing = d.listing ++ [new] := by
  obtain ⟨l, hl⟩ : ∃ l, fs.nbBlocks parent = l + 1 :=
    ⟨_, (Nat.sub_add_cancel d.nonempty).symm⟩
  have hlast : fs.nbBlocks parent - 1 = l := by omega
  rw [hlast] at hlinks
  have hkept (i) (hi : i < fs.nbBlocks parent) (hne : i ≠ l) (x) (hx : x < fs.blockSize) :
      v'.blk fs (v.blockPtr fs parent i) x = d.blk i x := h.blk_of_ne hi (by omega) hx
  have hnew (x) (hx : x < fs.blockSize) : v'.blk fs (v.blockPtr fs parent l) x = buf x := by
    rw [← hlast]
    exact Volume.blk_of_written h hx
  refine ⟨⟨Function.update d.records l os', d.nonempty, fun i hi => ?_, fun i hi j hj hij => ?_,
    fun hmany i hi => ?_, fun i hi => ?_⟩, ?_⟩
  · rw [h.blockPtr hi]
    exact d.mapped i hi
  · rw [h.blockPtr hi, h.blockPtr hj]
    exact d.apart i hi j hj hij
  · rw [h.blockPtr hi]
    exact d.indirectApart hmany i hi
  · rw [h.blockPtr hi]
    rcases eq_or_ne i l with rfl | hne
    · rw [Function.update_self]
      exact hwf.congr hnew
    · rw [Function.update_of_ne hne]
      exact (d.wellFormed i hi).congr (hkept i hi hne)
  · have hinit : ((List.range l).flatMap fun i =>
        links (v'.blk fs (v'.blockPtr fs parent i)) (Function.update d.records l os' i)) =
        (List.range l).flatMap fun i => links (d.blk i) (d.records i) := by
      apply List.flatMap_congr
      intro i hi
      have hi := List.mem_range.1 hi
      rw [h.blockPtr (by omega), Function.update_of_ne (by omega)]
      exact (d.wellFormed i (by omega)).links_eq (hkept i (by omega) (by omega))
    simp only [listing, blk, hl, List.range_succ, List.flatMap_append] at hinit ⊢
    rw [hinit, List.append_assoc]
    simp only [List.flatMap_cons, List.flatMap_nil, List.append_nil, Function.update_self]
    rw [h.blockPtr (by omega), hwf.links_eq hnew, hlinks, blk]

end Rewritten

/-! ## Linking a name -/

/-- A drive that answers gets to the last block, and what becomes of it is up to
`addEntry`. -/
theorem linkEntry_eq (d : Directory fs v parent) (hg : fs.Good) (inodeId : Nat)
    (filename : List UInt8) :
    ∃ old, (∀ x < fs.blockSize, old x = d.blk (fs.nbBlocks parent - 1) x) ∧
      ∃ next : Mem → Volume, (∀ buf, d.Rewritten (next buf) buf ∧ (next buf).sb = v.sb ∧
          (next buf).bgdt = v.bgdt) ∧
        fs.linkEntry parent inodeId filename v =
          (fs.addEntry old inodeId filename >>= fun buf => pure (next buf)) := by
  have hi : sub32 (fs.nbBlocks parent) 1 = fs.nbBlocks parent - 1 := sub32_of_le d.nonempty
  have hmapped := d.mapped _ (Nat.sub_lt d.nonempty Nat.one_pos)
  have hptr := hg.getBlockPtr parent (fs.nbBlocks parent - 1) v
  have hframe := fs.getBlockPtr_frame parent (fs.nbBlocks parent - 1) v
  rw [Mount.linkEntry, hi]
  simp only [Rewritten, blk]
  generalize fs.getBlockPtr parent (fs.nbBlocks parent - 1) v = r at hptr hframe ⊢
  generalize v.blockPtr fs parent (fs.nbBlocks parent - 1) = last at hptr hmapped ⊢
  obtain ⟨b, v₁⟩ := r
  obtain rfl : b = last := hptr
  obtain ⟨hdisk₁, hsb, hbgdt⟩ : v₁.disk = v.disk ∧ v₁.sb = v.sb ∧ v₁.bgdt = v.bgdt := hframe
  refine ⟨(fs.stale v₁.transfers).blit 0 fs.blockSize (v₁.blk fs b), fun x hx => ?_,
    fun buf => { v₁ with
      disk := v₁.disk.blit (fs.blkAddr b) fs.blockSize buf
      transfers := v₁.transfers + 1 + 1 }, fun buf => ?_, ?_⟩
  · rw [Mem.blit_of_mem (by omega) (by omega), Nat.sub_zero, Volume.blk, hdisk₁, Volume.blk]
  · rw [hdisk₁]
    exact ⟨rfl, hsb, hbgdt⟩
  · simp only [if_neg hmapped, hg.readBlk, hg.writeBlk, Bool.not_true, Bool.false_eq_true, if_false]

end Directory

/-- A block larger than 64 KiB is never written. -/
theorem Mount.linkEntry_of_large (hs : fs.Sized) (hlarge : 65536 < fs.blockSize)
    (h : fs.linkEntry parent inodeId filename v = .ok v') : v'.disk = v.disk := by
  rw [linkEntry] at h
  generalize sub32 (fs.nbBlocks parent) 1 = i at h
  have hframe := (fs.getBlockPtr_frame parent i v).1
  simp only at h
  split at h
  · obtain rfl := pure_eq_ok.1 h
    exact hframe
  split at h
  · obtain rfl := pure_eq_ok.1 h
    exact hframe
  · simp only [bind_eq_ok, pure_eq_ok] at h
    obtain ⟨buf, -, rfl⟩ := h
    rw [writeBlk_of_large hs hlarge]
    exact hframe

namespace Directory

theorem grows_of_room (d : Directory fs v parent) (hg : fs.Good) (hlen : filename.length < 256)
    (hid : inodeId < 2 ^ 32) (hroom : d.Room filename.length) : d.Grows inodeId filename := by
  obtain ⟨os, o, hrecords⟩ := d.exists_last hg.sized
  obtain ⟨old, hold, next, hnext, hlink⟩ := d.linkEntry_eq hg inodeId filename
  have hwf := d.wellFormed _ (Nat.sub_lt d.nonempty Nat.one_pos)
  rw [hrecords] at hwf
  obtain ⟨hsize, hname, -⟩ := hwf.record_congr hold (o := o) (by simp)
  have hroom' : entryUsed old o + (8 + filename.length) ≤ entrySize old o := by
    rw [d.room_iff _ _ hrecords] at hroom
    rw [hsize, entryUsed, hname]
    exact hroom
  obtain ⟨hcarved, hnew⟩ := (hwf.congr hold).carved hroom' hlen hid
  have hadd : fs.addEntry old inodeId filename = .ok (carved fs old o inodeId filename) :=
    (hwf.congr hold).addEntry_eq_ok.2 ⟨(fitted_of_lt hlen).symm ▸ hroom', by rw [fitted_of_lt hlen]⟩
  rw [hadd] at hlink
  refine ⟨_, hlink, (hnext _).1.grow hcarved ?_⟩
  rw [hnew, hwf.links_eq hold, hrecords]
  rfl

theorem room_of_grows (d : Directory fs v parent) (hg : fs.Good) (hlen : filename.length < 256)
    (hgrows : d.Grows inodeId filename) : d.Room filename.length := by
  obtain ⟨v', hlink', -⟩ := hgrows
  obtain ⟨os, o, hrecords⟩ := d.exists_last hg.sized
  obtain ⟨old, hold, next, -, hlink⟩ := d.linkEntry_eq hg inodeId filename
  have hwf := d.wellFormed _ (Nat.sub_lt d.nonempty Nat.one_pos)
  rw [hrecords] at hwf
  obtain ⟨hsize, hname, -⟩ := hwf.record_congr hold (o := o) (by simp)
  rw [hlink'] at hlink
  obtain ⟨buf, hadd, -⟩ := bind_eq_ok.1 hlink.symm
  obtain ⟨hroom, -⟩ := (hwf.congr hold).addEntry_eq_ok.1 hadd
  rw [fitted_of_lt hlen] at hroom
  rw [d.room_iff _ _ hrecords]
  rw [hsize, entryUsed, hname] at hroom
  exact hroom

theorem small_of_grows (d : Directory fs v parent) (hs : fs.Sized)
    (hgrows : d.Grows inodeId filename) : fs.blockSize ≤ 65536 := by
  obtain ⟨v', hlink, d', hlisting⟩ := hgrows
  rcases Nat.lt_or_ge 65536 fs.blockSize with hlarge | hsmall
  · -- nothing is written, so the listing has not changed
    rw [d.unique d' (Mount.linkEntry_of_large hs hlarge hlink)] at hlisting
    have hlength := congrArg List.length hlisting
    simp at hlength
  · exact hsmall

end Directory

/-- Linking a name of up to 255 bytes keeps a directory well formed exactly where the
last record leaves room for it, in blocks that the driver can transfer. -/
theorem directory_grows (d : Directory fs v parent) (hs : fs.Sized) (hr : fs.Reliable)
    (hlen : filename.length < 256) (hid : inodeId < 2 ^ 32) :
    d.Grows inodeId filename ↔ fs.blockSize ≤ 65536 ∧ d.Room filename.length := by
  constructor
  · intro hgrows
    have hsmall := d.small_of_grows hs hgrows
    exact ⟨hsmall, d.room_of_grows ⟨hr, hs, hsmall⟩ hlen hgrows⟩
  · rintro ⟨hsmall, hroom⟩
    exact d.grows_of_room ⟨hr, hs, hsmall⟩ hlen hid hroom

/-! ## Two directories of one block -/

/-- A drive that never fails, with blocks of 1 KiB. -/
def kibMount : Mount where
  lbaRoot := 0
  blockSize := 1024
  nbBlockGroups := 1
  inodeSize := 128
  timeout _ _ := none
  stale _ _ := 0

/-- A directory whose only block is block 5. -/
def oneBlockInode : Inode where
  raw := ((Mem.store (fun _ => 0) 0 2 0x41ED).store 4 4 1024).store 40 4 5
  inodeId := 2

/-- Block 5 holds the given records: offset, length, and length of the name. -/
def recordVolume (rs : List (Nat × Nat × Nat)) : Volume where
  disk := rs.foldl (fun m r => ((m.store (5120 + r.1) 4 2).store (5124 + r.1) 2 r.2.1).store
    (5126 + r.1) 1 r.2.2) fun _ => 0
  sb _ := 0
  bgdt _ := 0
  transfers := 0

theorem oneBlock_facts : kibMount.nbBlocks oneBlockInode = 1 ∧
    ∀ v : Volume, v.blockPtr kibMount oneBlockInode 0 = 5 := by
  constructor
  · decide
  · intro v
    have hptr : oneBlockInode.inodeDirectBlkPtr 0 = 5 := by decide
    rw [Volume.blockPtr, if_pos (by omega), hptr]

/-- One block of records is a directory. -/
def Directory.ofBlock {v : Volume} {os : List Nat}
    (h : WellFormedBlk kibMount (v.blk kibMount 5) os) :
    Directory kibMount v oneBlockInode where
  records _ := os
  nonempty := by
    rw [oneBlock_facts.1]
    exact Nat.one_pos
  mapped i hi := by
    rw [oneBlock_facts.1] at hi
    rw [Nat.lt_one_iff.1 hi, oneBlock_facts.2]
    decide
  apart i hi j hj hij := by
    rw [oneBlock_facts.1] at hi hj
    omega
  indirectApart hmany := by
    rw [oneBlock_facts.1] at hmany
    omega
  wellFormed i hi := by
    rw [oneBlock_facts.1] at hi
    rw [Nat.lt_one_iff.1 hi, oneBlock_facts.2]
    exact h

/-- `.` and `..`, which takes up the rest of the block. -/
def roomyDirectory : Directory kibMount (recordVolume [(0, 12, 1), (12, 1012, 2)]) oneBlockInode :=
  .ofBlock (show WellFormedBlk kibMount _ [0, 12] by decide)

/-- The last record, with a name of four bytes, has no slack. -/
def fullDirectory : Directory kibMount
    (recordVolume [(0, 12, 1), (12, 1000, 2), (1012, 12, 4)]) oneBlockInode :=
  .ofBlock (show WellFormedBlk kibMount _ [0, 12, 1012] by decide)

theorem kibMount_sized : kibMount.Sized := ⟨0, by omega, rfl⟩

/-- A name of three bytes is linked behind `..`. -/
theorem directory_grows_roomy :
    roomyDirectory.Room 3 ∧ roomyDirectory.Grows 11 [0x66, 0x6F, 0x6F] := by
  have hroom : roomyDirectory.Room 3 := by
    rw [roomyDirectory.room_iff [0] 12 rfl]
    decide
  exact ⟨hroom, (directory_grows roomyDirectory kibMount_sized (fun _ _ => rfl) (by decide)
    (by omega)).2 ⟨by decide, hroom⟩⟩

/-- A record that has no slack leaves the new one no byte of the block. -/
theorem full_directory_broken : ¬ fullDirectory.Grows 11 [0x61] := by
  intro hgrows
  have hroom := fullDirectory.room_of_grows ⟨fun _ _ => rfl, kibMount_sized, by decide⟩ (by decide)
    hgrows
  rw [fullDirectory.room_iff [0, 12] 1012 rfl] at hroom
  exact absurd hroom (by decide)

end Kaku
