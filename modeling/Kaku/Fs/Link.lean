-- SUMMARY: Linking a name into the root directory of a consistent volume, and what becomes of the paths.
import Kaku.Fs.Tree

/-!
# Linking a name

The last part of `fs_ext2_create_file` rewrites the last block of a directory. On a consistent
image no other file or directory sees that, and all paths lead where they led.
-/

namespace Kaku

/-! ## Directories as they are listed -/

section Directories

variable {fs : Mount} {v v' : Volume} {dir : Inode}

theorem Entries.unique (d d' : Entries fs v dir) : d'.listing = d.listing := by
  apply List.flatMap_congr
  intro i hi
  have hi := List.mem_range.1 hi
  rw [(d'.wellFormed i hi).tiled.unique (d.wellFormed i hi).tiled]

namespace Directory

theorem toEntries_listing (d : Directory fs v dir) (hdir : dir.isDir = true) :
    (d.toEntries hdir).listing = d.listing := rfl

/-- A directory whose blocks are the same has the same records, and the same room. -/
theorem keep (d : Directory fs v dir) (h : fs.SameContents v v' dir) :
    ∃ d' : Directory fs v' dir, d'.listing = d.listing ∧ ∀ n, d.Room n → d'.Room n := by
  have hblk (i : Nat) (hi : i < fs.nbBlocks dir) (x : Nat) (hx : x < fs.blockSize) :
      v'.blk fs (v'.blockPtr fs dir i) x = d.blk i x := by
    rw [h.ptrs]
    exact h.bytes i (d.mapped i hi) x hx
  refine ⟨⟨d.records, d.nonempty, fun i hi => ?_, fun i hi j hj hij => ?_, fun hmany i hi => ?_,
    fun i hi => (d.wellFormed i hi).congr (hblk i hi)⟩, ?_, fun n hroom => ?_⟩
  · rw [h.ptrs]
    exact d.mapped i hi
  · rw [h.ptrs, h.ptrs]
    exact d.apart i hi j hj hij
  · rw [h.ptrs]
    exact d.indirectApart hmany i hi
  · apply List.flatMap_congr
    intro i hi
    have hi := List.mem_range.1 hi
    exact (d.wellFormed i hi).links_eq (hblk i hi)
  · have hlast := Nat.sub_lt d.nonempty Nat.one_pos
    obtain ⟨o, ho, hfits⟩ := hroom
    have hmem := List.mem_of_getLast? ho
    obtain ⟨hsize, hname, -⟩ := (d.wellFormed _ hlast).record_congr (hblk _ hlast) hmem
    refine ⟨o, ho, ?_⟩
    rw [Directory.blk, hsize, entryUsed, hname]
    exact hfits

end Directory

end Directories

namespace Mount

variable {fs : Mount} {v v' : Volume} {dir inode : Inode} {k n : Nat} {name : List UInt8}
  {new : List (Nat × List UInt8)}

/-- The blocks of a directory of a consistent image are apart from one another. -/
theorem Consistent.directory (h : fs.Consistent v) (huse : fs.InUse v k)
    (d : Entries fs v (fs.inodeAt v k)) (hpos : 0 < fs.nbBlocks (fs.inodeAt v k)) :
    ∃ d' : Directory fs v (fs.inodeAt v k), d'.listing = d.listing := by
  have htable : fs.diskTable v k = some (fs.inodeAt v k) := if_pos ⟨huse, .inr d.isDir⟩
  have hdata (s : Option Nat) (hne : v.fileBlk fs (fs.inodeAt v k) s ≠ 0) :
      fs.Data v (v.fileBlk fs (fs.inodeAt v k) s) := by
    have hdata := h.owned.data k s
    rw [refBlk_some htable] at hdata
    exact hdata hne
  have honce (s s' : Option Nat) (hne : v.fileBlk fs (fs.inodeAt v k) s ≠ 0)
      (heq : v.fileBlk fs (fs.inodeAt v k) s = v.fileBlk fs (fs.inodeAt v k) s') : s = s' := by
    have honce := h.owned.once k s k s'
    rw [refBlk_some htable, refBlk_some htable] at honce
    exact (Prod.mk.inj (honce hne heq)).2
  refine ⟨⟨d.records, hpos, d.mapped, fun i hi j hj hij => ?_, fun hmany i hi => ?_, d.wellFormed⟩,
    rfl⟩
  · have hi := d.mapped i hi
    have hj := d.mapped j hj
    apply (hdata (some i) hi).apart h.owned.tables (hdata (some j) hj)
    exact fun heq => hij (Option.some.inj (honce (some i) (some j) hi heq))
  · have hi := d.mapped i hi
    -- block 12 is there, and with it the indirect block
    have hsingle : (fs.inodeAt v k).inodeSinglyIndirectBlkPtr ≠ 0 := fun hzero =>
      d.mapped 12 hmany (blockPtr_of_no_indirect hzero (Nat.le_refl 12))
    apply (hdata (some i) hi).apart h.owned.tables (hdata none hsingle)
    intro heq
    cases honce (some i) none hi heq

/-- The volume on which records have been put behind those of the root directory. -/
structure Linked (fs : Mount) (v v' : Volume) (new : List (Nat × List UInt8)) : Prop where
  layout : SameLayout v v'
  inUse : ∀ k, fs.InUse v' k ↔ fs.InUse v k
  inodeAt : ∀ k, fs.InUse v k → fs.inodeAt v' k = fs.inodeAt v k
  contents : ∀ k ≠ 2, ∀ inode, fs.diskTable v k = some inode → fs.SameContents v v' inode
  root : ∀ d : Entries fs v (fs.inodeAt v 2), ∃ d' : Entries fs v' (fs.inodeAt v 2),
    d'.listing = d.listing ++ new

/-- A volume on which nothing has been written. -/
theorem Linked.after (t : Nat) : fs.Linked v (v.after t) [] where
  layout := .of_eq rfl rfl
  inUse _ := Iff.rfl
  inodeAt _ _ := rfl
  contents _ _ _ _ := ⟨fun _ => rfl, fun _ _ _ _ => rfl⟩
  root d := ⟨⟨d.records, d.isDir, d.mapped, d.wellFormed⟩, (List.append_nil _).symm⟩

/-- The last block of the root directory belongs to nobody else. -/
theorem Consistent.linked (h : fs.Consistent v) (huse : fs.InUse v 2)
    (d : Directory fs v (fs.inodeAt v 2)) (hdir : (fs.inodeAt v 2).isDir = true) {buf : Mem}
    {os' : List Nat} {e : Nat × List UInt8} (hw : d.Rewritten v' buf) (hsb : v'.sb = v.sb)
    (hbgdt : v'.bgdt = v.bgdt) (hwf : WellFormedBlk fs buf os')
    (hlinks : links buf os' = links (d.blk (fs.nbBlocks (fs.inodeAt v 2) - 1))
      (d.records (fs.nbBlocks (fs.inodeAt v 2) - 1)) ++ [e]) : fs.Linked v v' [e] := by
  have hmapped := d.mapped _ (Nat.sub_lt d.nonempty Nat.one_pos)
  obtain ⟨d', hlisting⟩ := hw.grow hwf hlinks
  have hlast : fs.refBlk v (fs.diskTable v) 2 (some (fs.nbBlocks (fs.inodeAt v 2) - 1)) =
      v.blockPtr fs (fs.inodeAt v 2) (fs.nbBlocks (fs.inodeAt v 2) - 1) :=
    refBlk_some (if_pos ⟨huse, .inr hdir⟩)
  rw [Directory.Rewritten] at hw
  rw [← hlast] at hw hmapped
  have hdata := h.owned.data _ _ hmapped
  have hframe := Written.frame ⟨hw, hsb, hbgdt⟩ h.owned.image h.owned.tables hdata
  refine ⟨hframe.layout, fun k => hframe.inUse h.owned.tables h.owned.image,
    fun k hk => hframe.inodeAt h.owned.tables hk.1 hk.2.1, fun k hne inode hin => ?_, fun d₀ => ?_⟩
  · have hblk (s : Option Nat) (hs : v.fileBlk fs inode s ≠ 0) (x : Nat) (hx : x < fs.blockSize) :
        v'.blk fs (v.fileBlk fs inode s) x = v.blk fs (v.fileBlk fs inode s) x := by
      rw [← refBlk_some hin] at hs ⊢
      refine hframe.data _ (h.owned.data k s hs) (fun heq => ?_) x hx
      obtain ⟨hwho, -⟩ := Prod.mk.inj (h.owned.once k s _ _ hs heq)
      rw [whose, whose, hin, show fs.diskTable v 2 = some (fs.inodeAt v 2) from
        if_pos ⟨huse, .inr hdir⟩] at hwho
      exact hne ((diskTable_number hin).symm.trans (Option.some.inj hwho))
    exact ⟨fun i => fileBlk_congr (s := some i) fun hs => hblk none hs, fun i hs => hblk (some i) hs⟩
  · refine ⟨d'.toEntries hdir, ?_⟩
    rw [Directory.toEntries_listing, hlisting, ← d.toEntries_listing hdir,
      d₀.unique (d.toEntries hdir)]

/-- Where the name is put, it is put behind the last record. -/
theorem Consistent.linkEntry_eq (h : fs.Consistent v) (huse : fs.InUse v 2)
    (d : Directory fs v (fs.inodeAt v 2)) (hdir : (fs.inodeAt v 2).isDir = true) (hid : n < 2 ^ 32)
    (hlink : fs.linkEntry (fs.inodeAt v 2) n name v = .ok v') :
    fs.Linked v v' [(n, fitted name)] := by
  have hg := h.owned.good
  obtain ⟨os, o, hrecords⟩ := d.exists_last hg.sized
  obtain ⟨old, hold, next, hnext, hrun⟩ := d.linkEntry_eq hg n name
  have hwf := d.wellFormed _ (Nat.sub_lt d.nonempty Nat.one_pos)
  rw [hrecords] at hwf
  rw [hlink] at hrun
  obtain ⟨buf, hadd, hv⟩ := bind_eq_ok.1 hrun.symm
  cases hv
  obtain ⟨hroom, rfl⟩ := (hwf.congr hold).addEntry_eq_ok.1 hadd
  have hlen : (fitted name).length < 256 := by
    rw [length_fitted]
    exact Nat.mod_lt _ (by omega)
  obtain ⟨hcarved, hnew⟩ := (hwf.congr hold).carved hroom hlen hid
  obtain ⟨hrewritten, hsb, hbgdt⟩ := hnext (carved fs old o n (fitted name))
  refine h.linked huse d hdir hrewritten hsb hbgdt hcarved ?_
  rw [hnew, hwf.links_eq hold, hrecords]
  rfl

theorem Consistent.linkEntry_of_room (h : fs.Consistent v) (huse : fs.InUse v 2)
    (d : Directory fs v (fs.inodeAt v 2)) (hdir : (fs.inodeAt v 2).isDir = true) (hid : n < 2 ^ 32)
    (hlen : name.length < 256) (hroom : d.Room name.length) :
    ∃ v', fs.linkEntry (fs.inodeAt v 2) n name v = .ok v' ∧ fs.Linked v v' [(n, name)] := by
  obtain ⟨v', hlink, -⟩ := d.grows_of_room h.owned.good hlen hid hroom
  have hlinked := h.linkEntry_eq huse d hdir hid hlink
  rw [fitted_of_lt hlen] at hlinked
  exact ⟨v', hlink, hlinked⟩

/-- A root directory without blocks has no room for a record. -/
theorem linkEntry_of_empty (hg : fs.Good) (hempty : fs.nbBlocks inode = 0) :
    ∃ t, fs.linkEntry inode n name v = .ok (v.after t) := by
  have hsmall := hg.small
  have hindex : sub32 (fs.nbBlocks inode) 1 = 4294967295 := by rw [hempty, sub32]; rfl
  obtain ⟨t, hptr⟩ := hg.getBlockPtr_eq inode 4294967295 v
  rw [blockPtr_of_large (by omega)] at hptr
  refine ⟨t, ?_⟩
  rw [linkEntry, hindex, hptr]
  rfl

/-- Whatever room there is, the root directory gets the new record or none. -/
theorem Consistent.linkEntry (h : fs.Consistent v) (ht : fs.Tree v) (hid : n < 2 ^ 32)
    (hlink : fs.linkEntry (fs.inodeAt v 2) n name v = .ok v') :
    ∃ new, (new = [] ∨ new = [(n, fitted name)]) ∧ fs.Linked v v' new := by
  obtain ⟨d, -⟩ := ht.entries 2 ht.root ht.rootIsDir
  rcases Nat.eq_zero_or_pos (fs.nbBlocks (fs.inodeAt v 2)) with hempty | hpos
  · obtain ⟨t, hrun⟩ := linkEntry_of_empty h.owned.good hempty
    rw [hrun] at hlink
    cases hlink
    exact ⟨[], .inl rfl, Linked.after t⟩
  · obtain ⟨d', -⟩ := h.directory ht.root d hpos
    exact ⟨_, .inr rfl, h.linkEntry_eq ht.root d' ht.rootIsDir hid hlink⟩

/-! ## Paths after the link -/

namespace Linked

variable (h : fs.Linked v v' new) (ht : fs.Tree v)
include h ht

theorem tree (hnew : ∀ e ∈ new, e.1 ≠ 0 → 0 ∉ e.2 ∧ fs.InUse v e.1) : fs.Tree v' where
  tables := ht.tables.congr h.layout
  root := (h.inUse 2).2 ht.root
  rootIsDir := by rw [h.inodeAt 2 ht.root, ht.rootIsDir]
  entries k hk hdir := by
    have hin := (h.inUse k).1 hk
    rw [h.inodeAt k hin] at hdir ⊢
    obtain ⟨d, hlive⟩ := ht.entries k hin hdir
    rcases eq_or_ne k 2 with rfl | hne
    · obtain ⟨d', hlisting⟩ := h.root d
      refine ⟨d', fun e he hzero => ?_⟩
      rw [hlisting] at he
      rw [h.inUse]
      rcases List.mem_append.1 he with he | he
      · exact hlive e he hzero
      · exact hnew e he hzero
    · obtain ⟨d', hlisting⟩ := d.keep (h.contents k hne _ (if_pos ⟨hin, .inr hdir⟩))
      refine ⟨d', fun e he hzero => ?_⟩
      rw [hlisting] at he
      rw [h.inUse]
      exact hlive e he hzero

/-- In the root directory the new records are looked at behind the others. -/
theorem child_root (d : Entries fs v (fs.inodeAt v 2)) (name : List UInt8) :
    fs.child v' 2 name = firstNamed (d.listing ++ new) name := by
  obtain ⟨d', hlisting⟩ := h.root d
  rw [child_eq ht.tables.good (h.inodeAt 2 ht.root) d', hlisting]

theorem child_of_ne (hk : fs.InUse v k) (hne : k ≠ 2) (name : List UInt8) :
    fs.child v' k name = fs.child v k name :=
  ht.child_congr hk (h.inodeAt k hk) (fun hdir => h.contents k hne _ (if_pos ⟨hk, .inr hdir⟩)) name

theorem kept : fs.Extends v v' where
  inUse k hk := (h.inUse k).2 hk
  inodeAt := h.inodeAt
  child k hk name hne := by
    rcases eq_or_ne k 2 with rfl | hk2
    · obtain ⟨d, -⟩ := ht.entries 2 hk ht.rootIsDir
      rw [child_eq ht.tables.good rfl d] at hne ⊢
      rw [h.child_root ht d, firstNamed_append hne]
    · exact h.child_of_ne ht hk hk2 name

end Linked

end Mount

end Kaku
