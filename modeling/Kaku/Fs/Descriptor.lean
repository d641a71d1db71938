-- SUMMARY: What a descriptor names, from the call that opens it to the call that closes it.
import Kaku.Fs.Coherent

/-!
# What descriptors name

`SYS_OPEN` gives the caller the lowest descriptor that is free, for the file that its path leads
to. The descriptor names this file until its process closes it or is reaped, whatever all other
calls do meanwhile.
-/

namespace Kaku

namespace FileSystem

/-- The flags of a descriptor, and the number of its file. -/
def descriptor (s : FileSystem) (a : ProcPtr) (d : Fin maxFds) : Option (UInt8 × Nat) :=
  ((s.files.fds a).get d).map fun pfe => (pfe.flags, (s.inodes pfe.globalFd).inodeId)

/-- The event closes the descriptor of the process, or reaps the process. -/
def Drops (s : FileSystem) (e : Trap) (a : ProcPtr) (d : Fin maxFds) : Prop :=
  s.files.Closes { event := e.event } a d ∨ s.files.kernel.reaped e.event = some a

/-- The steps that leave the descriptor of the process open. -/
def Keeping (fs : Mount) (a : ProcPtr) (d : Fin maxFds) (s : FileSystem) (e : Trap)
    (s' : FileSystem) : Prop :=
  Goes fs s e s' ∧ ¬ s.Drops e a d

variable {fs : Mount} {s s' s₀ s₁ t : FileSystem} {a c : ProcPtr} {d : Fin maxFds}
  {regs : Registers} {env : SyscallEnv} {e : Trap} {event : FileEvent} {es es' : List Trap}
  {allowed flags : UInt8} {k : Nat} {v : Volume} {genkan : Image} {out buf : Mem}

/-! ## What a step leaves open -/

/-- The numbers behind the entries that are there stay. -/
theorem Driven.number (h : Driven fs s s₁ c regs e event) (hs : s.Sound fs) {i : Nat} {node : VfsNode}
    (hnode : fdNode s.files.fdTable i = some node) : (s₁.inodes i).inodeId = (s.inodes i).inodeId := by
  rw [← (h.held i node hnode).number, (hs.held i node hnode).number]

/-- The tables take their own step, and no entry becomes that of another file. -/
theorem Sound.step_files (hs : s.Sound fs) (hroom : s.HasRoom fs e)
    (h : s.step (some fs) e = .ok (s', out)) :
    ∃ event : FileEvent, event.event = e.event ∧ s.files.step event = .ok s'.files ∧
      ∀ i node, fdNode s.files.fdTable i = some node →
        (s'.inodes i).inodeId = (s.inodes i).inodeId := by
  rw [FileSystem.step] at h
  split at h
  · rename_i c regs env hcur hevent
    obtain ⟨⟨s₁, event, buf⟩, hdrive, h⟩ := bind_eq_ok.1 h
    obtain ⟨files, hfiles, h⟩ := bind_eq_ok.1 h
    cases h
    obtain ⟨hdriven, -⟩ := hs.drivePart hcur hevent hroom hdrive
    rw [hdriven.files] at hfiles
    exact ⟨event, hdriven.sameEvent, hfiles, fun i node hnode => hdriven.number hs hnode⟩
  · obtain ⟨files, hfiles, h⟩ := bind_eq_ok.1 h
    cases h
    exact ⟨_, rfl, hfiles, fun _ _ _ => rfl⟩

/-- A step that closes neither the descriptor nor ends its process. -/
theorem Sound.keeps (hs : s.Sound fs) (ha : a ∈ s.files.kernel.procs) (h : Keeping fs a d s e s')
    (hd : s.descriptor a d = some (flags, k)) :
    a ∈ s'.files.kernel.procs ∧ s'.descriptor a d = some (flags, k) := by
  obtain ⟨hgoes, hkeep⟩ := h
  obtain ⟨hroom, out, hstep⟩ := goes_iff.1 hgoes
  obtain ⟨event, hevent, hfiles, hnumber⟩ := hs.step_files hroom hstep
  obtain ⟨lost, hcounted⟩ := hs.counted
  obtain ⟨pfe, hpfe, heq⟩ := Option.map_eq_some_iff.1 hd
  obtain ⟨entry, hentry⟩ := hcounted.backed ha d pfe hpfe
  have hclose : ¬ s.files.Closes event a d := by
    rintro ⟨regs, env, hcur, hcall, hboth⟩
    exact hkeep (.inl ⟨regs, env, hcur, hevent ▸ hcall, hboth⟩)
  constructor
  · exact Files.step_procs hs.kernel hcounted hfiles ha (hevent ▸ fun hreap => hkeep (.inr hreap))
  · rw [descriptor, Files.step_fds hs.kernel ha hfiles hpfe hclose, Option.map_some,
      hnumber pfe.globalFd entry.node (by rw [fdNode, hentry]; rfl), heq]

/-! ## Opening -/

/-- What `SYS_OPEN` makes of the descriptors, by the number of the file that it finds. -/
structure Opened (s s' : FileSystem) (c : ProcPtr) (flags : UInt8) (found : Option Nat) :
    Prop where
  refused : found = none ∨ (s.files.fds c).firstFree = none → s'.returned c = some 0xFFFFFFFF ∧
    ∀ a ∈ s.files.kernel.procs, ∀ d, s'.descriptor a d = s.descriptor a d
  granted : ∀ k d, found = some k → (s.files.fds c).firstFree = some d →
    s'.returned c = some (UInt32.ofNat d.val) ∧ s'.descriptor c d = some (flags, k) ∧
      ∀ a ∈ s.files.kernel.procs, ∀ d', ¬ (a = c ∧ d' = d) →
        s'.descriptor a d' = s.descriptor a d'

/-- A descriptor that is the same, of entries that are for the same file. -/
theorem descriptor_congr {lost : Nat → Nat} (hcounted : s.files.Accounted lost)
    (ha : a ∈ s.files.kernel.procs) (hsame : (s'.files.fds a).get d = (s.files.fds a).get d)
    (hnumber : ∀ i node, fdNode s.files.fdTable i = some node →
      (s'.inodes i).inodeId = (s.inodes i).inodeId) : s'.descriptor a d = s.descriptor a d := by
  rw [descriptor, descriptor, hsame]
  cases hpfe : (s.files.fds a).get d with
  | none => rfl
  | some pfe =>
    obtain ⟨entry, hentry⟩ := hcounted.backed ha d pfe hpfe
    rw [Option.map_some, Option.map_some,
      hnumber pfe.globalFd entry.node (by rw [fdNode, hentry]; rfl)]

/-- The call as a step of the machine, once the drive has been searched. -/
theorem step_of_open {files : Files} (hcur : s.files.kernel.currentProc = some c)
    (hevent : e.event = .syscall regs env) (hnum : regs.eax = sysOpen)
    (hcall : s.openCall (some fs) c regs e = .ok (s₁, event))
    (hfiles : s₁.files.step event = .ok files) :
    s.step (some fs) e = .ok ({ s₁ with files := files }, e.buf) := by
  have hdrive : s.drivePart (some fs) c regs e = .ok (s₁, event, e.buf) := by
    rw [FileSystem.drivePart, if_pos hnum, hcall]
    rfl
  rw [FileSystem.step, hcur, hevent]
  simp only [hdrive, ok_bind, hfiles]
  rfl

/-- `SYS_OPEN` from the tables down to the drive. -/
theorem Sound.open (hs : s.Sound fs) (hcur : s.files.kernel.currentProc = some c)
    (hevent : e.event = .syscall regs env) (hnum : regs.eax = sysOpen)
    (hpath : e.path = [slash] ∨ Mount.pathNames e.path ≠ []) (hlen : e.path.length < nameBytes) :
    ∃ s' out, s.step (some fs) e = .ok (s', out) ∧
      Opened s s' c regs.ecx.toUInt8 (fs.opens s.vol e.path) := by
  obtain ⟨lost, hcounted⟩ := hs.counted
  obtain ⟨found, w, hopen⟩ := hs.inOrder.vfsOpen_ok e.stale hpath hlen
  obtain ⟨-, hfound⟩ := hs.inOrder.vfsOpen hopen
  obtain ⟨s₁, event, hcall, hopened⟩ : ∃ s₁ event, s.openCall (some fs) c regs e = .ok (s₁, event) ∧
      event.opened = found.map fun node => { vnodeId := UInt32.ofNat node.vnodeId } := by
    rw [FileSystem.openCall, hopen, ok_bind]
    cases found with
    | none => exact ⟨_, _, rfl, rfl⟩
    | some node => exact ⟨_, _, rfl, rfl⟩
  obtain ⟨hdriven, -⟩ := hs.openCall hcall
  have hevent' : event.event = .syscall regs env := hdriven.sameEvent.trans hevent
  have hnumber : ∀ i node, fdNode s.files.fdTable i = some node →
      (s₁.inodes i).inodeId = (s.inodes i).inodeId := fun i node => hdriven.number hs
  have hkernel : s₁.files.kernel.Inv := hdriven.files ▸ hs.kernel
  have hcur' : s₁.files.kernel.currentProc = some c := hdriven.files ▸ hcur
  by_cases hnone : found = none ∨ (s.files.fds c).firstFree = none
  · have hrefused : event.opened = none ∨ (s₁.files.fds c).firstFree = none := by
      rw [hopened, hdriven.files]
      exact hnone.imp_left fun hfound => by rw [hfound]; rfl
    obtain ⟨files, hfiles, heax, hfds⟩ := Files.step_refused hkernel hcur' hevent' hnum hrefused
    rw [hdriven.files] at hfds
    refine ⟨_, _, step_of_open hcur hevent hnum hcall hfiles, fun _ => ⟨heax, fun a ha d => ?_⟩,
      fun k d hk hfree => ?_⟩
    · exact descriptor_congr hcounted ha (congrArg (·.get d) (hfds a ha)) hnumber
    · rw [hfree] at hnone
      obtain rfl := hnone.resolve_right (Option.some_ne_none d)
      rcases hfound with ⟨-, hnothing⟩ | ⟨node, hsome, -⟩
      · cases hk.symm.trans hnothing
      · cases hsome
  · rw [not_or, ← Ne, ← Ne, Option.ne_none_iff_exists', Option.ne_none_iff_exists'] at hnone
    obtain ⟨⟨node, rfl⟩, d, hfree⟩ := hnone
    obtain ⟨node', hsome, hopens, hheld⟩ := hfound.resolve_left fun h => (by cases h.1)
    cases hsome
    have hfree' : (s₁.files.fds c).firstFree = some d := hdriven.files ▸ hfree
    obtain ⟨files, i, hfiles, heax, hnode, hfds⟩ :=
      Files.step_granted hkernel hcur' hevent' hnum hopened hfree'
    rw [hdriven.files] at hfds
    have hstep := step_of_open hcur hevent hnum hcall hfiles
    have hroom : s.HasRoom fs e := by
      intro k bytes hwritten
      rw [written_of_ne hcur hevent (by rw [hnum]; decide)] at hwritten
      cases hwritten
    -- the entry behind the new descriptor has the number of the node
    have hid : (s₁.inodes i).inodeId = node.fsSpecific.inodeId := by
      rw [← ((hs.step hroom hstep).sound.held i _ hnode).number, hheld.number]
    refine ⟨_, _, hstep, fun hboth => ?_, fun k d' hk hd' => ?_⟩
    · rw [hopens, hfree] at hboth
      rcases hboth with hboth | hboth <;> cases hboth
    · rw [hopens] at hk
      rw [hfree] at hd'
      cases hk
      cases hd'
      obtain ⟨p, hp, -⟩ := hs.kernel.wf.current hcur
      have hc : c ∈ s.files.kernel.procs := (hs.kernel.wf.shape.mem_procs c).2 ⟨p, hp⟩
      refine ⟨heax, ?_, fun a ha d' hne => descriptor_congr hcounted ha ?_ hnumber⟩
      · show ((files.fds c).get d).map _ = _
        rw [hfds c hc, if_pos rfl, show Vector.get (Vector.set _ d.val _ d.isLt) d = _ from
          Vector.getElem_set_self d.isLt, Option.map_some, hid]
      · show (files.fds a).get d' = _
        rw [hfds a ha]
        split_ifs with hac
        · subst hac
          have hother : d.val ≠ d'.val := fun heq => hne ⟨rfl, (Fin.ext heq).symm⟩
          exact Vector.getElem_set_ne d.isLt d'.isLt hother
        · rfl

/-! ## Whole runs -/

/-- As long as its process keeps it, a new descriptor names the file that it was opened for. -/
theorem Sound.kept_since_open (hs : s.Sound fs) (hcur : s.files.kernel.currentProc = some c)
    (hevent : e.event = .syscall regs env) (hnum : regs.eax = sysOpen)
    (hstep : s.step (some fs) e = .ok (s', out))
    (hd : s'.descriptor c d = some (regs.ecx.toUInt8, k)) (hkeep : Run (Keeping fs c d) s' es t) :
    t.Sound fs ∧ t.descriptor c d = some (regs.ecx.toUInt8, k) := by
  have hroom : s.HasRoom fs e := by
    intro k bytes hwritten
    rw [written_of_ne hcur hevent (by rw [hnum]; decide)] at hwritten
    cases hwritten
  have hs' := (hs.step hroom hstep).sound
  have hc : c ∈ s'.files.kernel.procs := by
    obtain ⟨p, hp, -⟩ := hs.kernel.wf.current hcur
    obtain ⟨lost, hcounted⟩ := hs.counted
    obtain ⟨event, hsame, hfiles, -⟩ := hs.step_files hroom hstep
    refine Files.step_procs hs.kernel hcounted hfiles ((hs.kernel.wf.shape.mem_procs c).2 ⟨p, hp⟩) ?_
    intro hreap
    obtain ⟨regs', env', -, -, hcall, hwait, -⟩ := Kernel.reaped_eq_some.1 hreap
    rw [hsame, hevent] at hcall
    cases hcall
    rw [hnum] at hwait
    cases hwait
  have hlast := hkeep.invariant (I := fun u => u.Sound fs ∧ c ∈ u.files.kernel.procs ∧
      u.descriptor c d = some (regs.ecx.toUInt8, k))
    (fun u e u' hstep hu => ⟨(hu.1.goes hstep.1).sound, hu.1.keeps hu.2.1 hstep hu.2.2⟩)
    ⟨hs', hc, hd⟩
  exact ⟨hlast.1, hlast.2.2⟩

end FileSystem

end Kaku
