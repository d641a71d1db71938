-- SUMMARY: What the directories show after a run of the driver: the records they had, and those of the created files.
import Kaku.Fs.Drive
import Kaku.Fs.Readdir

/-!
# Listings over runs

A created file is the last record of the root directory. The other directories show what they
showed, and no write to a file changes what a directory shows.
-/

namespace Kaku.Mount

variable {fs : Mount} {v w u : Volume} {k n : Nat} {path name : List UInt8}
  {rs : List (Nat × List UInt8)} {es : List DriveCall} {call : DriveCall}

/-- The records that the calls have put into the root directory. -/
def created (fs : Mount) (v : Volume) (es : List DriveCall) : List (Nat × List UInt8) :=
  es.flatMap (fs.links v)

/-- Every name that has been created leads to something. -/
def CreatedOpen (fs : Mount) (v : Volume) (es : List DriveCall) : Prop :=
  ∀ name buf size, .create name buf size ∈ es → (fs.opens v (absolutePath [name])).isSome = true

theorem created_single {buf : Mem} {size : Nat}
    (hopen : fs.opens v (absolutePath [name]) = some n) :
    fs.created v [.create name buf size] = [(n, name)] := by
  rw [created, List.flatMap_singleton, links, hopen]
  rfl

/-- The numbers of created files stay the same. -/
theorem created_congr (hopen : fs.CreatedOpen u es)
    (hkept : ∀ path k, fs.opens u path = some k → fs.opens w path = some k) :
    fs.created w es = fs.created u es := by
  apply List.flatMap_congr
  intro call hcall
  cases call with
  | create name buf size =>
    obtain ⟨k, hk⟩ := Option.isSome_iff_exists.1 (hopen name buf size hcall)
    rw [links, links, hk, hkept _ k hk]
  | store path buf size => rfl

/-- A record of a created file has the number that the path of the file opens. -/
theorem CreatedOpen.of_mem {r : Nat × List UInt8} (hopen : fs.CreatedOpen w es)
    (hr : r ∈ fs.created w es) :
    fs.opens w (absolutePath [r.2]) = some r.1 ∧ ∃ buf size, .create r.2 buf size ∈ es := by
  obtain ⟨call, hcall, hlink⟩ := List.mem_flatMap.1 hr
  cases call with
  | create name buf size =>
    obtain ⟨n, hn⟩ := Option.isSome_iff_exists.1 (hopen name buf size hcall)
    rw [links, hn, List.mem_singleton] at hlink
    subst hlink
    exact ⟨hn, buf, size, hcall⟩
  | store path buf size => cases hlink

theorem Formatted.drives_shows (hv : fs.Formatted v) (hrun : Run fs.Drives v es w)
    (hshows : fs.Shows v k rs) :
    fs.CreatedOpen w es ∧ fs.Shows w k (rs ++ if k = 2 then fs.created w es else []) := by
  have hkept (v call v') (hstep : fs.Drives v call v') (hv : fs.Formatted v) : fs.Formatted v' :=
    (hv.step hstep).formatted
  induction hrun with
  | refl =>
    refine ⟨nofun, ?_⟩
    rwa [created, List.flatMap_nil, ite_self, List.append_nil]
  | @snoc u w es call hrun hstep ih =>
    obtain ⟨hopen, hu⟩ := ih
    have hformatted := hrun.invariant hkept hv
    have hserved := hformatted.step hstep
    refine ⟨fun name buf size hmem => ?_, ?_⟩
    · rcases List.mem_append.1 hmem with hold | hnew
      · obtain ⟨k, hk⟩ := Option.isSome_iff_exists.1 (hopen name buf size hold)
        rw [hserved.opens _ k hk]
        rfl
      · obtain rfl := List.mem_singleton.1 hnew
        obtain ⟨-, k, hk, -⟩ := hformatted.create hstep.1.1 hstep.1.2 hstep.2
        rw [hk]
        rfl
    · have hnext := hserved.shows k _ hu
      rw [← created_congr hopen hserved.opens, List.append_assoc] at hnext
      rw [created, List.flatMap_append, List.flatMap_singleton]
      split_ifs at hnext ⊢ with hroot
      · exact hnext
      · exact hnext

/-- What a path opens, it opens after every run. -/
theorem Formatted.drives_opens (hv : fs.Formatted v) (hrun : Run fs.Drives v es w)
    (hopen : fs.opens v path = some k) : fs.Formatted w ∧ fs.opens w path = some k := by
  have hkept (v call v') (hstep : fs.Drives v call v') (hv : fs.Formatted v) : fs.Formatted v' :=
    (hv.step hstep).formatted
  exact ⟨hrun.invariant hkept hv, hrun.invariant_of (I := fun u => fs.opens u path = some k) hkept
    (fun _ _ _ hstep hu hopen => (hu.step hstep).opens path k hopen) hv hopen⟩

/-- The kernel lists what a directory shows. -/
theorem Formatted.lists (hv : fs.Formatted v) (hopen : fs.opens v path = some k)
    (hshows : fs.Shows v k rs) :
    ∃ es, fs.Lists v path es ∧ es.map (fun e => (e.entryInode, e.entryName)) = rs := by
  obtain ⟨rfl, hne, -⟩ := opens_eq_some.1 hopen
  obtain ⟨-, d, rfl⟩ := hshows
  refine ⟨d.entries, fun t => ?_, d.entries_map⟩
  obtain ⟨u, hresolve⟩ := hv.inOrder.tree.resolvePath hne t
  obtain ⟨w, hlist⟩ := d.listDir hv.inOrder.consistent.owned.good u
  exact ⟨_, u, w, hresolve, d.isDir, hlist⟩

/-- A record in use has a slot in the inode table. -/
theorem Formatted.hasSlot (hv : fs.Formatted v) (hshows : fs.Shows v k rs) {r : Nat × List UInt8}
    (hr : r ∈ rs) (hne : r.1 ≠ 0) : fs.HasSlot v r.1 := by
  obtain ⟨huse, d, rfl⟩ := hshows
  obtain ⟨d', hlive⟩ := hv.inOrder.tree.entries k huse d.isDir
  rw [d'.unique d] at hr
  obtain ⟨u, hread⟩ := hv.inOrder.tree.readInode (hlive r hr hne).2 0
  exact hasSlot_of_readInode hv.inOrder.consistent.owned.good.reliable hread

theorem freshVolume_shows : tinyMount.Shows freshVolume 2 [(2, [0x2E]), (2, [0x2E, 0x2E])] :=
  ⟨freshVolume_tree.root, freshDirectory.toEntries freshVolume_tree.rootIsDir, by decide⟩

end Kaku.Mount
