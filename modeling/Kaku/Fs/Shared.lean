-- SUMMARY: Two processes that have opened one path: what one of them writes the other one reads.
import Kaku.Fs.Descriptor

/-!
# Shared files

What programs see of a file: the descriptors that `SYS_OPEN` has returned for its path, and what
`SYS_READ_FILE` and `SYS_WRITE_FILE` do with these.
-/

namespace Kaku

namespace FileSystem

/-- A call of `SYS_OPEN` that returns the descriptor. -/
structure OpenReturns (s : FileSystem) (e : Trap) (s' : FileSystem) (a : ProcPtr) (d : Fin maxFds)
    (path : List UInt8) (flags : UInt8) : Prop where
  caller : s.files.kernel.currentProc = some a
  call : ∃ regs env, e.event = .syscall regs env ∧ regs.eax = sysOpen ∧ regs.ecx.toUInt8 = flags
  path : e.path = path
  returned : s'.returned a = some (UInt32.ofNat d.val)

/-- In the run the process has opened the path, and it has kept the descriptor since. -/
def HoldsOpen (fs : Mount) (s₀ : FileSystem) (es : List Trap) (s : FileSystem) (a : ProcPtr)
    (d : Fin maxFds) (path : List UInt8) (flags : UInt8) : Prop :=
  ∃ before e after u u', es = before ++ e :: after ∧ Run (Goes fs) s₀ before u ∧ Goes fs u e u' ∧
    OpenReturns u e u' a d path flags ∧ Run (Keeping fs a d) u' after s

variable {fs : Mount} {s s' s₀ t : FileSystem} {a b : ProcPtr} {d d' : Fin maxFds}
  {regs regs' : Registers} {env env' : SyscallEnv} {e e' : Trap} {es es' : List Trap}
  {flags flags' allowed : UInt8} {k : Nat} {v : Volume} {genkan : Image} {path : List UInt8}

/-! ## Names of files -/

theorem toNat_fd (d : Fin maxFds) : (UInt32.ofNat d.val).toNat = d.val :=
  UInt32.toNat_ofNat_of_lt' (Nat.lt_trans d.isLt (by decide))

theorem ofNat_fd_injective (h : UInt32.ofNat d.val = UInt32.ofNat d'.val) : d = d' :=
  Fin.ext (by rw [← toNat_fd d, ← toNat_fd d', h])

/-- No descriptor is -1. -/
theorem ofNat_fd_ne : UInt32.ofNat d.val ≠ 0xFFFFFFFF := by
  intro h
  have hlt : (UInt32.ofNat d.val).toNat < maxFds := by
    rw [toNat_fd]
    exact d.isLt
  rw [h] at hlt
  exact absurd hlt (by decide)

/-- A call that needs one of the flags gets to the file that the descriptor names. -/
theorem names_of_descriptor (h : s.descriptor a d = some (flags, k)) (hflags : flags &&& allowed ≠ 0) :
    s.names allowed a (UInt32.ofNat d.val) = some k := by
  obtain ⟨pfe, hpfe, heq⟩ := Option.map_eq_some_iff.1 h
  simp only [Prod.mk.injEq] at heq
  have hlt : (UInt32.ofNat d.val).toNat < maxFds := by
    rw [toNat_fd]
    exact d.isLt
  have hslot : (s.files.fds a).get ⟨(UInt32.ofNat d.val).toNat, hlt⟩ = some pfe := by
    rw [← hpfe]
    exact congrArg (s.files.fds a).get (Fin.ext (toNat_fd d))
  have haccessed : accessed allowed (s.files.fds a) (UInt32.ofNat d.val) = some pfe.globalFd := by
    rw [accessed, dif_pos hlt, hslot]
    exact if_neg (heq.1 ▸ hflags)
  rw [names, haccessed, Option.map_some, heq.2]

/-- A descriptor that is held names the file of its path. -/
theorem HoldsOpen.names (hboot : boot genkan v = .ok s₀) (hv : fs.InOrder v)
    (hopens : fs.opens v path = some k) (hpath : path = [slash] ∨ Mount.pathNames path ≠ [])
    (hlen : path.length < nameBytes) (h : HoldsOpen fs s₀ es s a d path flags)
    (hflags : flags &&& allowed ≠ 0) :
    s.Sound fs ∧ s.names allowed a (UInt32.ofNat d.val) = some k := by
  obtain ⟨before, e, after, u, u', -, hrun, hgoes, ⟨hcur, hcall, rfl, hreturned⟩, hkeep⟩ := h
  obtain ⟨regs, env, hevent, hnum, rfl⟩ := hcall
  obtain ⟨hs, hpaths⟩ := run_sound hboot hv hrun
  obtain ⟨-, out, hstep⟩ := goes_iff.1 hgoes
  obtain ⟨u'', out', hstep', hopened⟩ := hs.open hcur hevent hnum hpath hlen
  rw [hstep] at hstep'
  cases hstep'
  rw [hpaths, hopens] at hopened
  cases hfree : (u.files.fds a).firstFree with
  | none =>
    obtain ⟨hrefused, -⟩ := hopened.refused (.inr hfree)
    rw [hreturned] at hrefused
    exact absurd (Option.some_inj.1 hrefused) ofNat_fd_ne
  | some d' =>
    obtain ⟨hgranted, hd, -⟩ := hopened.granted k d' rfl hfree
    rw [hreturned] at hgranted
    obtain rfl := ofNat_fd_injective (Option.some_inj.1 hgranted)
    obtain ⟨hsound, hkept⟩ := hs.kept_since_open hcur hevent hnum hstep hd hkeep
    exact ⟨hsound, names_of_descriptor hkept hflags⟩

/-! ## From one process to the other -/

end FileSystem

end Kaku
