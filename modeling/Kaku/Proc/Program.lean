-- SUMMARY: From the bytes that are stored in a file to the memory of the process that is started from it.
import Kaku.Fs.Drive
import Kaku.Proc.Image
import Kaku.Proc.Refuse

/-!
# Starting a stored program

`elf_load` reads the file into a buffer of the kernel heap. Of an executable it looks at no byte
behind the end of the file, so what the heap had there before makes no difference: the image is
the one that the stored bytes describe.
-/

namespace Kaku

/-- The bytes from address 0 on. -/
def ofBytes (bytes : List UInt8) : Mem := fun x => bytes.getD x 0

/-- The bytes of an executable: the magic number, headers and segments inside the file and below
the user stack, and bytes of each segment that no later segment displaces. -/
structure Executable (bytes : List UInt8) : Prop where
  magic : (ofBytes bytes).load 0 4 = elfMagic
  header : 52 ≤ bytes.length
  table : ∀ i < (ofBytes bytes).load 44 2,
    (ofBytes bytes).load 28 4 + i * (ofBytes bytes).load 42 2 + 32 ≤ bytes.length
  loadable : Loadable (ofBytes bytes) bytes.length
  coincides : Coincides (ofBytes bytes)

variable {fs : Mount} {v w : Volume} {s s' : System} {h : KHeap} {path bytes : List UInt8}
  {es : List Mount.DriveCall} {k n : Nat} {result : Int} {elf : Mem} {m m' : Memory} {p : ProcMem}
  {file : Option FileBuf}

theorem ofBytes_of_peek (hpeek : elf.peek 0 bytes.length = bytes) {x : Nat} (hx : x < bytes.length) :
    elf x = ofBytes bytes x := by
  have hat : (elf.peek 0 bytes.length)[x]? = some (elf x) := by
    simp [Mem.peek, hx]
  rw [ofBytes, List.getD_eq_getElem?_getD, ← hpeek, hat, Option.getD_some]

/-! ## The buffer -/

/-- The buffer starts with the bytes of the file. -/
theorem Mount.Formatted.openElf (hw : fs.Formatted w) (hopen : fs.opens w path = some k)
    (hbytes : fs.contents w k = some bytes) (hpath : path.length < 256)
    (hrun : Kaku.openElf h fs w path = .ok file) :
    ∃ b, file = some b ∧ b.inode.isFile = true ∧ b.inode.inodeSizeLowBits = bytes.length ∧
      b.elf.peek 0 bytes.length = bytes := by
  obtain ⟨rfl, hne, htype⟩ := Mount.opens_eq_some.1 hopen
  obtain ⟨huse, hfile, rfl⟩ := Mount.contents_eq_some.1 hbytes
  obtain ⟨t, hresolve⟩ := hw.inOrder.tree.resolvePath hne w.transfers
  rw [Volume.after_self] at hresolve
  have hsize : (fs.inodeAt w (fs.pathNumber w path)).inodeSizeLowBits < 2 ^ 32 := Mem.load_lt
  rw [Kaku.openElf, hresolve, ok_bind] at hrun
  simp only [if_neg htype, nodeSize_short hpath hsize, ok_bind] at hrun
  obtain ⟨⟨h', buf⟩, -, hrun⟩ := bind_eq_ok.1 hrun
  have hmapped : fs.Mapped (w.after t) (fs.inodeAt w (fs.pathNumber w path)) :=
    (hw.inOrder.after t).whole _ huse hfile
  obtain ⟨m, out, t', hread, -, -, hpeek⟩ :=
    hmapped.readFileContents hw.inOrder.consistent.owned.good hfile
      (fs.inodeAt w (fs.pathNumber w path)).inodeSizeLowBits fun x => h'.mem (addr32 (buf + x))
  simp only [hread] at hrun
  cases hrun
  refine ⟨_, rfl, hfile, Mount.length_fileBytes.symm, ?_⟩
  rw [Nat.min_self, List.take_of_length_le Mount.length_fileBytes.le] at hpeek
  rw [Mount.length_fileBytes]
  exact hpeek

/-! ## The stack of the kernel -/

/-- Mapping pages writes to new frames, to the directory and to its tables. -/
theorem Memory.Laid.same {blank : Prop} {pd g : Nat} {pages : List NewPage}
    (hlaid : Memory.Laid blank m pd (fun _ => none) (fun _ => none) [])
    (hv : ∀ page ∈ pages, page.vaddr < kernelVirtBaseAddr) (hmap : m.mapPages pd pages = .ok m')
    (hused : m.used g = true) (hne : g ≠ pd) : m.Same m' g := by
  -- `g` is none of the tables as long as no entry of the directory refers to it
  suffices h : (∃ T P seen, Memory.Laid blank m' pd T P seen) ∧ m'.used g = true ∧
      (∀ i < 768, m'.entry pd i ≠ pageEntry g procUserFlags) ∧ m.Same m' g from h.2.2.2
  induction pages using List.reverseRecOn generalizing m' with
  | nil =>
    simp only [Memory.mapPages, pure_eq_ok] at hmap
    subst hmap
    refine ⟨⟨_, _, _, hlaid⟩, hused, fun i hi => ?_, .refl⟩
    rw [hlaid.absent i hi rfl]
    exact Memory.pageEntry_ne_zero.symm
  | append_singleton pages page ih =>
    simp only [Memory.mapPages_append, Memory.mapPages, bind_eq_ok, pure_eq_ok,
      exists_eq_right] at hmap
    obtain ⟨m₁, hpages, hpage⟩ := hmap
    obtain ⟨⟨T, P, seen, h₁⟩, hused₁, hentries, hsame⟩ :=
      ih (fun q hq => hv q (by simp [hq])) hpages
    have hin := hv page (by simp)
    have hindex : page.vaddr / 2 ^ 22 < 768 := by
      rw [kernelVirtBaseAddr] at hin
      omega
    obtain ⟨t, f, w⟩ := h₁.writes hin hpage
    obtain ⟨t', f', h₂⟩ := h₁.mapPage hin hpage
    have hgt : g ≠ t := by
      rintro rfl
      cases w.table with
      | old hentry _ => exact hentries _ hindex hentry
      | new _ hfree =>
        rw [hused₁] at hfree
        cases hfree
    have hgf : g ≠ f := by
      rintro rfl
      have hfree := w.fresh
      rw [hused₁] at hfree
      cases hfree
    refine ⟨⟨_, _, _, h₂⟩, (w.used g).2 (.inl hused₁), fun i hi => ?_,
      hsame.trans (w.frames g hne hgt hgf)⟩
    rw [w.directory i (hi.trans (by decide))]
    split
    · exact fun heq => hgt (Memory.pageEntry_inj heq).symm
    · exact hentries i hi

/-- What the scheduler restores when it dispatches the process for the first time. -/
def StartsAt (m : Memory) (p : ProcMem) (entry : Nat) : Prop :=
  ∀ x < 52, m.phys (p.kernelStackFrame * 4096 + (4096 - 52 + x)) =
    wordsAsBytes (createContext entry) x

theorem procObject_procId {pid entry : Nat} (h : procObject m pid entry = .ok (m', p)) :
    p.procId = pid := by
  simp only [procObject, bind_eq_ok, Prod.exists, pure_eq_ok, Prod.mk.injEq] at h
  obtain ⟨-, -, -, -, -, -, -, -, -, rfl⟩ := h
  rfl

/-- The context on the kernel stack is not touched when the image is mapped. -/
theorem startsAt_of_elfLoad (hm : m.Addressable) {pid fileSize : Nat}
    (hfile : Loadable elf fileSize) (hload : elfLoad m pid (some elf) = .ok (m', some p)) :
    StartsAt m' p (elf.load 24 4) := by
  obtain ⟨-, -, m₁, o, hobject, hmap, hp⟩ := elfLoad_some hload
  have hlaid := procObject_laid hm hobject
  simp only [procObject, bind_eq_ok, Prod.exists, pure_eq_ok, Prod.mk.injEq] at hobject
  obtain ⟨m₂, pd, hpd, m₃, ks, halloc, ks', hdirect, rfl, rfl⟩ := hobject
  obtain ⟨rfl, hks⟩ := Memory.direct_eq_ok hdirect
  have hframe : p.kernelStackFrame = ks' :=
    Memory.kernelStackFrame_kernelStackAddr hks (by rw [hp])
  have hfresh := (Memory.faAlloc_spec (pagingCreatePd_laid hm hpd).addressable halloc).1
  have hused := (Memory.faAlloc_spec (pagingCreatePd_laid hm hpd).addressable halloc).2.2.2.2 ks'
  have hne : ks' ≠ pd := by
    rintro rfl
    rw [(pagingCreatePd_laid hm hpd).directory] at hfresh
    cases hfresh
  have hsame := hlaid.same (fun page hpage => vaddr_lt_of_mem hfile hpage) hmap
    (hused.2 (.inr rfl)) hne
  intro x hx
  rw [hframe, hsame _ (by omega)]
  change m₃.phys.blit (ks' * 4096 + (4096 - 52)) 52 (wordsAsBytes (createContext (elf.load 24 4)))
    (ks' * 4096 + (4096 - 52 + x)) = _
  rw [Mem.blit_of_mem (by omega) (by omega), Nat.add_sub_add_left, Nat.add_sub_cancel_left]

/-! ## The image -/

/-- Of an executable no byte behind its end is read. -/
theorem Executable.confined (hprog : Executable bytes) {inode : Inode} (hfile : inode.isFile = true)
    (hsize : inode.inodeSizeLowBits = bytes.length) :
    ∀ r ∈ elfReads (ofBytes bytes), r.1 + r.2 ≤ bytes.length := by
  have hwf : FileBuf.WellFormed ⟨inode, bytes.length, ofBytes bytes⟩ :=
    { regular := hfile
      complete := hsize.le
      magic := hprog.magic
      header := hsize ▸ hprog.header
      table := hsize ▸ hprog.table
      segments := hsize ▸ hprog.loadable.inFile }
  exact hwf.confined

/-- An executable is loaded as its bytes describe it, whatever is behind them in the buffer. -/
theorem Executable.elfLoad (hprog : Executable bytes) (hm : m.Addressable)
    (hreads : ∀ r ∈ elfReads (ofBytes bytes), r.1 + r.2 ≤ bytes.length)
    (hpeek : elf.peek 0 bytes.length = bytes) {pid : Nat} {o : Option ProcMem}
    (hload : Kaku.elfLoad m pid (some elf) = .ok (m', o)) :
    ∃ p, o = some p ∧ p.procId = pid ∧ p.programBreak = roundUp (imageEnd (ofBytes bytes)) ∧
      StartsAt m' p ((ofBytes bytes).load 24 4) ∧ ImageLoaded m' p (ofBytes bytes) := by
  have hsame : ∀ r ∈ elfReads (ofBytes bytes), SameAt (ofBytes bytes) elf r := by
    intro r hr x hlo hhi
    exact ofBytes_of_peek hpeek (hhi.trans_le (hreads r hr))
  rw [elfLoad_congr hsame] at hload
  obtain ⟨⟨m₁, o₁⟩, hplain, hrest⟩ := bind_eq_ok.1 hload
  cases hrest
  cases o₁ with
  | none =>
    rw [Kaku.elfLoad, if_neg (not_not_intro hprog.magic)] at hplain
    obtain ⟨r₁, -, hplain⟩ := bind_eq_ok.1 hplain
    obtain ⟨r₂, -, hplain⟩ := bind_eq_ok.1 hplain
    cases hplain
  | some p =>
    have himage := imageLoaded_of_coincides hm hprog.loadable hplain hprog.coincides
    have hstart := startsAt_of_elfLoad hm hprog.loadable hplain
    obtain ⟨-, -, m₂, o, hobject, -, rfl⟩ := elfLoad_some hplain
    have hid : o.procId = pid := procObject_procId hobject
    exact ⟨_, rfl, hid, rfl, hstart, himage⟩

section Sample

open Mount

/-- A file with one page to load, at 0x7C00000: two bytes that are at 84 in the file. -/
def loopElf : Mem :=
  (((System.onePageElf.store 24 4 0x7C00000).store 56 4 84).store 68 4 2).store 84 2 0xFEEB

theorem loopElf_headers :
    loadHeaders (ofBytes (loopElf.peek 0 86)) = [⟨1, 84, 0x7C00000, 2, 4096⟩] := by decide

theorem loopElf_executable : Executable (loopElf.peek 0 86) := by
  have hlen : (loopElf.peek 0 86).length = 86 := by decide
  have hloadable : Loadable (ofBytes (loopElf.peek 0 86)) (loopElf.peek 0 86).length :=
    loadable_of_single loopElf_headers (by decide) (by decide) (by decide) (by decide)
  refine ⟨by decide, by decide, by decide, hloadable, coincides_of_pageAligned hloadable ?_⟩
  intro ph hph _
  rw [loopElf_headers, List.mem_singleton] at hph
  subst hph
  rfl

end Sample

end Kaku
