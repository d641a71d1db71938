-- SUMMARY: `ls`: what it prints for a directory is the names in it, wrapped at 40 columns.
import Kaku.Fs.Listed
import Kaku.Lib.Wrap
import Kaku.User.Kai
import Kaku.User.Readdir

/-!
# `ls`

`user_fs/src/utils/ls.c`. The gap between two names counts as one column, but two spaces are
printed.
-/

namespace Kaku

/-! ## The code -/

def lsMaxLineLen : UInt32 := 40

def lsNoPathFmt : List UInt8 :=
  ascii "ls: error: no path given, and $PWD environment variable could not be read\n"
def lsFailed : List UInt8 := ascii "ls: readdir failed\n"
def lsGap : List UInt8 := ascii "  "
def newline : List UInt8 := ascii "\n"

/-- What `strlen` and `print` find at `entries[i].name`. -/
def UHeap.entryName (h : UHeap) (entries i : Nat) : K (List UInt8) :=
  textOf ((h.mem.peek (entries + i * dirEntryBytes + 9) nameBytes).map some)

/-- The loop over the entries. -/
def lsLoop (h : UHeap) (entries : Nat) : (left i : Nat) → (lineLen : UInt32) → K (List Act)
  | 0, _, _ => .ok []
  | left + 1, i, lineLen => do
    let name ← h.entryName entries i
    let nameLen := UInt32.ofNat name.length
    let sep : UInt32 := if lineLen = 0 then 0 else 1
    if lsMaxLineLen < lineLen + sep + nameLen then do
      -- a new line, with `line_len` and `sep` back at 0
      let acts ← lsLoop h entries left (i + 1) nameLen
      pure (.write newline :: .write name :: acts)
    else do
      let acts ← lsLoop h entries left (i + 1) (lineLen + (sep + nameLen))
      pure ((if sep ≠ 0 then [.write lsGap] else []) ++ .write name :: acts)

/-- What `main` does and returns, and what it leaves. -/
structure LsRun where
  acts : List Act
  code : Int
  heap : UHeap
  volume : Volume

/-- `main`, with what the kernel answers to `free` at its end. -/
def ls (answers : Answers) (os : Os) (ms : Nat → Mallocs) (fs : Mount) (argv : List (List UInt8))
    (environ : Environ) (h : UHeap) (v : Volume) : K LsRun :=
  match argv[1]?.or (environ.getenv pwdVar) with
  | none => do
    let acts ← say lsNoPathFmt [] ms
    pure ⟨acts, -1, h, v⟩
  | some path => do
    let r ← h.readdir answers fs path v
    if r.entries = 0 then pure ⟨[.write lsFailed], 1, r.heap, r.volume⟩
    else do
      let acts ← lsLoop r.heap r.entries r.countOut 0 0
      pure ⟨acts ++ [.write newline], 0, r.heap.free os r.entries, r.volume⟩

/-! ## The lines -/

/-- What the program has written. -/
def printed (acts : List Act) : List UInt8 :=
  acts.flatMap fun
    | .write text => text
    | _ => []

def lsRow (line : List (List UInt8)) : List UInt8 := lsGap.intercalate line ++ newline

/-- A name in a directory record. -/
def EntryName (name : List UInt8) : Prop := name ≠ [] ∧ 0 ∉ name ∧ name.length < nameBytes

variable {answers : Answers} {os : Os} {ms : Nat → Mallocs} {fs : Mount} {h : UHeap}
  {live : List UHeap.Alloc} {argv names line : List (List UInt8)} {environ : Environ}
  {path name : List UInt8} {v w : Volume} {es : List Mount.DriveCall} {rs : List (Nat × List UInt8)}
  {r : DirRead} {k entries i : Nat} {lineLen : UInt32}

theorem printed_append (acts acts' : List Act) :
    printed (acts ++ acts') = printed acts ++ printed acts' := List.flatMap_append

theorem printed_write (text : List UInt8) (acts : List Act) :
    printed (.write text :: acts) = text ++ printed acts := List.flatMap_cons

theorem intercalate_concat {sep : List UInt8} (hne : line ≠ []) :
    sep.intercalate (line ++ [name]) = sep.intercalate line ++ (sep ++ name) := by
  induction line with
  | nil => exact absurd rfl hne
  | cons x line ih =>
    cases line with
    | nil => simp [List.intercalate_cons_cons]
    | cons y line =>
      rw [List.cons_append, List.cons_append, List.intercalate_cons_cons,
        List.intercalate_cons_cons, ← List.cons_append, ih (List.cons_ne_nil y line)]
      simp only [List.append_assoc]

/-- The variable counts the columns of the line. -/
def Counts (lineLen : UInt32) (line : List (List UInt8)) : Prop :=
  lineLen.toNat = lineWidth List.length line ∧
    (lineWidth List.length line ≤ 40 ∨ ∃ name, line = [name]) ∧ ∀ name ∈ line, EntryName name

theorem Counts.lt (hcounts : Counts lineLen line) : lineLen.toNat < nameBytes := by
  obtain ⟨hlen, hline, hnames⟩ := hcounts
  rw [hlen]
  rcases hline with hfits | ⟨name, rfl⟩
  · exact hfits.trans_lt (by decide)
  · rw [lineWidth_singleton]
    exact (hnames name List.mem_cons_self).2.2

theorem Counts.eq_zero_iff (hcounts : Counts lineLen line) : lineLen = 0 ↔ line = [] := by
  obtain ⟨hlen, -, hnames⟩ := hcounts
  constructor
  · rintro rfl
    by_contra hne
    obtain ⟨name, rest, rfl⟩ := List.exists_cons_of_ne_nil hne
    have hpos := List.length_pos_of_ne_nil (hnames name List.mem_cons_self).1
    rw [lineWidth, List.map_cons, List.sum_cons, UInt32.toNat_zero] at hlen
    omega
  · rintro rfl
    exact UInt32.toNat_inj.1 hlen

/-- The sum that is compared with 40 does not overflow. -/
theorem Counts.next (hcounts : Counts lineLen line) (hname : EntryName name) :
    (lineLen + (if lineLen = 0 then 0 else 1) + UInt32.ofNat name.length).toNat =
      lineWidth List.length (line ++ [name]) := by
  have hlt := hcounts.lt
  have hshort := hname.2.2
  rw [nameBytes] at hlt hshort
  have hnameLen : (UInt32.ofNat name.length).toNat = name.length :=
    UInt32.toNat_ofNat_of_lt' (by rw [UInt32.size]; omega)
  by_cases hzero : lineLen = 0
  · obtain rfl := hcounts.eq_zero_iff.1 hzero
    rw [if_pos hzero, hzero, UInt32.add_zero, UInt32.zero_add, hnameLen, List.nil_append,
      lineWidth_singleton]
  · have hne : line ≠ [] := fun h => hzero (hcounts.eq_zero_iff.2 h)
    rw [if_neg hzero, UInt32.toNat_add, UInt32.toNat_add, hnameLen, lineWidth_concat hne,
      ← hcounts.1, UInt32.toNat_one]
    omega

/-- The loop ends the line that has been begun, and prints the other lines but for the last
newline. -/
theorem lsLoop_spec (hnames : ∀ name ∈ names, EntryName name)
    (hmem : ∀ j (hj : j < names.length), h.entryName entries (i + j) = .ok names[j])
    (hcounts : Counts lineLen line) : ∃ acts, lsLoop h entries names.length i lineLen = .ok acts ∧
      lsGap.intercalate line ++ (printed acts ++ newline) =
        (wrapFrom List.length 40 line names).flatMap lsRow := by
  induction names generalizing i lineLen line with
  | nil =>
    refine ⟨[], rfl, ?_⟩
    rw [wrapFrom, List.flatMap_singleton]
    rfl
  | cons name names ih =>
    obtain ⟨hname, hnames⟩ := List.forall_mem_cons.1 hnames
    have hhead : h.entryName entries i = .ok name := hmem 0 (Nat.succ_pos _)
    have htail (j : Nat) (hj : j < names.length) : h.entryName entries (i + 1 + j) = .ok names[j] := by
      rw [Nat.add_right_comm, Nat.add_assoc]
      exact hmem (j + 1) (Nat.succ_lt_succ hj)
    have hnext := hcounts.next hname
    rw [List.length_cons, lsLoop, hhead, ok_bind, wrapFrom]
    simp only
    generalize hsep : (if lineLen = 0 then (0 : UInt32) else 1) = sep at hnext ⊢
    have hfull : lsMaxLineLen < lineLen + sep + UInt32.ofNat name.length ↔
        ¬ lineWidth List.length (line ++ [name]) ≤ 40 := by
      rw [UInt32.lt_iff_toNat_lt, hnext, Nat.not_le]
      exact Iff.rfl
    by_cases hfits : lineWidth List.length (line ++ [name]) ≤ 40
    · have hkept : Counts (lineLen + (sep + UInt32.ofNat name.length)) (line ++ [name]) := by
        refine ⟨by rw [← UInt32.add_assoc, hnext], .inl hfits, ?_⟩
        exact List.forall_mem_append.2 ⟨hcounts.2.2, List.forall_mem_singleton.2 hname⟩
      obtain ⟨acts, hloop, hacts⟩ := ih hnames htail hkept
      rw [if_neg fun hover => hfull.1 hover hfits, if_pos hfits, hloop]
      refine ⟨_, rfl, ?_⟩
      rw [← hacts, printed_append, printed_write]
      by_cases hzero : lineLen = 0
      · obtain rfl := hcounts.eq_zero_iff.1 hzero
        obtain rfl : 0 = sep := by rwa [if_pos hzero] at hsep
        rw [if_neg (by decide), List.nil_append, List.intercalate_nil, List.intercalate_singleton]
        simp only [List.append_assoc]
        rfl
      · have hne : line ≠ [] := fun h => hzero (hcounts.eq_zero_iff.2 h)
        obtain rfl : 1 = sep := by rwa [if_neg hzero] at hsep
        rw [if_pos (by decide), intercalate_concat hne, printed_write]
        simp only [List.append_assoc]
        rfl
    · have hstart : Counts (UInt32.ofNat name.length) [name] := by
        have hshort := hname.2.2
        rw [nameBytes] at hshort
        refine ⟨?_, .inr ⟨name, rfl⟩, List.forall_mem_singleton.2 hname⟩
        rw [lineWidth_singleton]
        exact UInt32.toNat_ofNat_of_lt' (by rw [UInt32.size]; omega)
      obtain ⟨acts, hloop, hacts⟩ := ih hnames htail hstart
      rw [List.intercalate_singleton] at hacts
      rw [if_pos (hfull.2 hfits), if_neg hfits, hloop]
      refine ⟨_, rfl, ?_⟩
      rw [List.flatMap_cons, ← hacts, printed_write, printed_write, lsRow]
      simp only [List.append_assoc]

/-! ## The directory -/

theorem HoldsEntry.entryName {e : Entry} (hholds : HoldsEntry h.mem (entries + i * dirEntryBytes) e)
    (hname : EntryName e.entryName) : h.entryName entries i = .ok e.entryName := by
  have hsize : nameBytes = (e.entryName.length + 1) + (nameBytes - (e.entryName.length + 1)) :=
    (Nat.add_sub_cancel' hname.2.2).symm
  rw [UHeap.entryName, hsize, Mem.peek_add, hholds.name, List.map_append, textOf_written,
    takeWhile_of_nul_free hname.2.1]

/-- `ls` of a directory that the kernel lists. -/
theorem ls_of_lists {entries : List Entry} (harg : argv[1]?.or (environ.getenv pwdVar) = some path)
    (hpath : 0 ∉ path) (hfits : Mount.PathFits path) (hlists : fs.Lists v path entries)
    (hslots : ∀ e ∈ entries, fs.HasSlot v e.entryInode)
    (hnames : ∀ e ∈ entries, EntryName e.entryName) (hfew : entries.length < 2 ^ 22)
    (hinv : h.Inv live) (hmem : ∀ r, h.readdir answers fs path v = .ok r → r.refused = false) :
    ∃ acts h' v', ls answers os ms fs argv environ h v = .ok ⟨acts, 0, h', v'⟩ ∧ h'.Inv live ∧
      printed acts = (wrap List.length 40 (entries.map Entry.entryName)).flatMap lsRow := by
  obtain ⟨r, hread, hcomplete⟩ :=
    UHeap.readdir_complete hpath hfits hlists hslots hfew answers hinv
  obtain ⟨hcount, ⟨bytes, harray, -⟩, hholds⟩ := hcomplete (hmem r hread)
  have hne : r.entries ≠ 0 := harray.ptr_pos List.mem_cons_self
  have hstart : Counts 0 [] := ⟨rfl, .inl (Nat.zero_le 40), List.forall_mem_nil _⟩
  have hread_names (j : Nat) (hj : j < (entries.map Entry.entryName).length) :
      r.heap.entryName r.entries (0 + j) = .ok (entries.map Entry.entryName)[j] := by
    rw [List.length_map] at hj
    rw [Nat.zero_add, List.getElem_map]
    exact (hholds j hj).entryName (hnames _ (List.getElem_mem hj))
  obtain ⟨acts, hloop, hacts⟩ := lsLoop_spec (List.forall_mem_map.2 hnames) hread_names hstart
  rw [List.length_map, ← hcount] at hloop
  refine ⟨acts ++ [.write newline], r.heap.free os r.entries, r.volume, ?_, harray.free os, ?_⟩
  · rw [ls, harg]
    simp only
    rw [hread, ok_bind, if_neg hne, hloop]
    rfl
  · rw [printed_append, wrap, ← hacts]
    rfl

end Kaku
