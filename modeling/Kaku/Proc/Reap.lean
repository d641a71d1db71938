-- SUMMARY: Which frames proc_destroy gives back, for every run of the memory system.
import Kaku.Proc.SpaceRun

/-!
# Reaping gives back the frames of a process

The record of allocator calls says which frames were allocated for a process and
are not yet freed. `proc_destroy` never sees that record: it frees what the slots
of the process hold. The two agree as long as every page is mapped into an empty
slot and no slot comes to hold a frame by itself, that is, as long as page tables
start out without stale entries.
-/

namespace Kaku

/-! ## The ledger -/

/-- The record of calls lists what the slots hold, and the frames in use are these
and the reserved ones. -/
structure Ledger (reserved : Nat → Prop) (calls : List (Nat × FrameCall))
    (hold : Nat × Slot → Option Nat) (inUse : Nat → Prop) : Prop where
  lists : ∀ q, Enumerates (owned calls q) fun s => hold (q, s)
  inUse_iff : ∀ f, inUse f ↔ reserved f ∨ ∃ k, hold k = some f
  apart : ∀ {k f}, hold k = some f → ¬ reserved f

namespace Ledger

variable {reserved inUse inUse' : Nat → Prop} {calls : List (Nat × FrameCall)}
  {hold hold' : Nat × Slot → Option Nat} {q f : Nat} {s : Slot} {frames : List Nat}

theorem slots_update_self {v : Option Nat} :
    (fun a => Function.update hold (q, s) v (q, a)) =
      Function.update (fun a => hold (q, a)) s v := by
  funext a
  rcases eq_or_ne a s with rfl | ha
  · simp
  · rw [Function.update_of_ne ha, Function.update_of_ne (by simp [ha])]

theorem slots_update_of_ne {p : Nat} {v : Option Nat} (hp : p ≠ q) :
    (fun a => Function.update hold (q, s) v (p, a)) = fun a => hold (p, a) := by
  funext a
  rw [Function.update_of_ne (by simp [hp])]

/-- An empty slot takes a frame that was not in use. -/
theorem take (h : Ledger reserved calls hold inUse) (hk : hold (q, s) = none) (hf : ¬ inUse f)
    (huse : ∀ x, inUse' x ↔ inUse x ∨ x = f) :
    Ledger reserved ((q, .alloc f) :: calls) (Function.update hold (q, s) (some f)) inUse' where
  lists := by
    intro p
    rcases eq_or_ne p q with rfl | hp
    · rw [owned, if_pos rfl, slots_update_self]
      apply (h.lists p).take hk
      intro hmem
      obtain ⟨a, ha⟩ := ((h.lists p).mem_iff f).1 hmem
      exact hf ((h.inUse_iff f).2 (.inr ⟨_, ha⟩))
    · rw [owned_cons_of_ne hp.symm, slots_update_of_ne hp]
      exact h.lists p
  inUse_iff := by
    intro x
    rw [huse, h.inUse_iff, or_assoc]
    apply or_congr_right
    constructor
    · rintro (⟨k, hkx⟩ | rfl)
      · refine ⟨k, ?_⟩
        rw [Function.update_of_ne, hkx]
        rintro rfl
        rw [hk] at hkx
        cases hkx
      · exact ⟨(q, s), by simp⟩
    · rintro ⟨k, hkx⟩
      rcases eq_or_ne k (q, s) with rfl | hne
      · right
        simpa [eq_comm] using hkx
      · rw [Function.update_of_ne hne] at hkx
        exact .inl ⟨k, hkx⟩
  apart := by
    intro k x hkx
    rcases eq_or_ne k (q, s) with rfl | hne
    · obtain rfl : f = x := by simpa using hkx
      exact fun hr => hf ((h.inUse_iff f).2 (.inl hr))
    · rw [Function.update_of_ne hne] at hkx
      exact h.apart hkx

/-- A slot drops its frame, and the frame goes out of use. -/
theorem drop (h : Ledger reserved calls hold inUse) (hexcl : Exclusive hold inUse)
    (hk : hold (q, s) = some f) (huse : ∀ x, inUse' x ↔ inUse x ∧ x ≠ f) :
    Ledger reserved ((q, .free f) :: calls) (Function.update hold (q, s) none) inUse' where
  lists := by
    intro p
    rcases eq_or_ne p q with rfl | hp
    · rw [owned, if_pos rfl, slots_update_self]
      apply (h.lists p).drop hk
      intro a ha
      exact (Prod.mk.inj (hexcl.inj ha hk)).2
    · rw [owned_cons_of_ne hp.symm, slots_update_of_ne hp]
      exact h.lists p
  inUse_iff := by
    intro x
    rw [huse, h.inUse_iff]
    constructor
    · rintro ⟨hr | ⟨k, hkx⟩, hne⟩
      · exact .inl hr
      · refine .inr ⟨k, ?_⟩
        rw [Function.update_of_ne, hkx]
        rintro rfl
        rw [hk] at hkx
        exact hne (Option.some.inj hkx).symm
    · rintro (hr | ⟨k, hkx⟩)
      · refine ⟨.inl hr, ?_⟩
        rintro rfl
        exact h.apart hk hr
      · rcases eq_or_ne k (q, s) with rfl | hne
        · simp at hkx
        · rw [Function.update_of_ne hne] at hkx
          refine ⟨.inr ⟨k, hkx⟩, ?_⟩
          rintro rfl
          exact hne (hexcl.inj hkx hk)
  apart := by
    intro k x hkx
    rcases eq_or_ne k (q, s) with rfl | hne
    · simp at hkx
    · rw [Function.update_of_ne hne] at hkx
      exact h.apart hkx

/-- All slots of a process drop their frames. -/
theorem dropAll (h : Ledger reserved calls hold inUse) (hexcl : Exclusive hold inUse)
    (hframes : ∀ x, x ∈ frames ↔ ∃ s, hold (q, s) = some x)
    (huse : ∀ x, inUse' x ↔ inUse x ∧ x ∉ frames) :
    Ledger reserved (Memory.freed q frames ++ calls)
      (fun k => if k.1 = q then none else hold k) inUse' where
  lists := by
    intro p
    rcases eq_or_ne p q with rfl | hp
    · have hnil : owned (Memory.freed p frames ++ calls) p = [] := by
        rw [owned_freed, List.eq_nil_iff_forall_not_mem]
        intro x hx
        rw [(h.lists p).nodup.mem_sdiff_iff, (h.lists p).mem_iff, hframes] at hx
        exact hx.2 hx.1
      rw [hnil]
      exact ⟨List.nodup_nil, fun r => by simp⟩
    · rw [owned_freed_of_ne hp.symm]
      simp only [if_neg hp]
      exact h.lists p
  inUse_iff := by
    intro x
    rw [huse, h.inUse_iff, hframes]
    constructor
    · rintro ⟨hr | ⟨k, hk⟩, hout⟩
      · exact .inl hr
      · refine .inr ⟨k, ?_⟩
        rw [if_neg, hk]
        rintro rfl
        exact hout ⟨k.2, hk⟩
    · rintro (hr | ⟨k, hk⟩)
      · exact ⟨.inl hr, fun ⟨s, hs⟩ => h.apart hs hr⟩
      · split at hk
        · cases hk
        · rename_i hq
          refine ⟨.inr ⟨k, hk⟩, fun ⟨s, hs⟩ => ?_⟩
          exact hq (congrArg Prod.fst (hexcl.inj hk hs))
  apart := by
    intro k x hk
    split at hk
    · cases hk
    · exact h.apart hk

theorem inUse_iff_owned (h : Ledger reserved calls hold inUse) :
    inUse f ↔ reserved f ∨ ∃ q, f ∈ owned calls q := by
  rw [h.inUse_iff]
  simp only [(h.lists _).mem_iff, Prod.exists]

end Ledger

/-! ## The ledger of a run -/

namespace Memory

/-- Whether no frame is mapped at an address. -/
def unmappedAt (m : Memory) (pd vaddr : Nat) : Bool :=
  m.entry pd (vaddr / 2 ^ 22) == 0 ||
    !present (m.entry (frameOf (m.entry pd (vaddr / 2 ^ 22))) (vaddr / 2 ^ 12 % 1024))

/-- Mapping a page that is not mapped, without stale entries in a new table. -/
def mapsNew (m : Memory) (pd vaddr : Nat) : Bool := m.cleanAt pd vaddr && m.unmappedAt pd vaddr

variable {m m' : Memory} {live : Nat → Option ProcMem} {p : ProcMem} {q v : Nat}

theorem holding_of_unmappedAt (hp : live q = some p) (h : m.unmappedAt p.procPd v = true) :
    m.holding live (q, .page (v / 2 ^ 22) (v / 2 ^ 12 % 1024)) = none := by
  rw [holding_of_live hp, slot]
  simp only [unmappedAt, Bool.or_eq_true, beq_iff_eq, Bool.not_eq_true'] at h
  cases hpt : m.ref 768 p.procPd (v / 2 ^ 22) with
  | none => rfl
  | some pt =>
    obtain ⟨-, hpresent, rfl⟩ := ref_eq_some hpt
    rcases h with hzero | habsent
    · rw [hzero] at hpresent
      cases hpresent
    · rw [Option.bind_some, ref, if_neg]
      rw [habsent]
      simp

end Memory

namespace System

/-- The ledger of a memory. -/
def Balanced (reserved : Nat → Prop) (m : Memory) (live : Nat → Option ProcMem) : Prop :=
  Ledger reserved m.calls (m.holding live) m.InUse

theorem balanced_kept (reserved : Nat → Prop) : Kept Memory.mapsNew (Balanced reserved) where
  map := by
    intro m m' live q p v f hs hclient hp hC heffect hP
    simp only [Memory.mapsNew, Bool.and_eq_true] at hC
    have hempty := Memory.holding_of_unmappedAt hp hC.2
    cases heffect with
    | page hf huse hhold hcalls =>
      rw [Balanced, hcalls, hclient, hhold]
      exact hP.take hempty hf huse
    | table g hf hg hne huse hnone hhold hcalls =>
      rw [Balanced, hcalls, hclient, hhold, Function.update_comm (by simp)]
      have hpage : Ledger reserved ((q, .alloc f) :: m.calls)
          (Function.update (m.holding live) (q, .page (v / 2 ^ 22) (v / 2 ^ 12 % 1024)) (some f))
          fun x => m.InUse x ∨ x = f := hP.take hempty hf fun x => Iff.rfl
      refine hpage.take ?_ ?_ huse
      · rw [Function.update_of_ne (by simp), hnone]
      · exact not_or.2 ⟨hg, hne⟩
  unmap := by
    intro m m' live q v hs hclient heffect hP
    cases heffect with
    | absent hnone hm' => rwa [hm']
    | page f hf huse hhold hcalls hclient' =>
      rw [Balanced, hcalls, hclient, hhold]
      exact hP.drop hs.exclusive hf huse
  create := by
    intro m m' live q p hs hclient hp heffect hP
    have hdead : ∀ s, m.holding live (q, s) = none := fun s => Memory.holding_of_dead hp
    rw [Balanced, heffect.calls, hclient, heffect.hold]
    have hpd : Ledger reserved ((q, .alloc p.procPd) :: m.calls)
        (Function.update (m.holding live) (q, .directory) (some p.procPd))
        fun x => m.InUse x ∨ x = p.procPd := hP.take (hdead .directory) heffect.pd fun x => Iff.rfl
    refine hpd.take ?_ ?_ heffect.use
    · rw [Function.update_of_ne (by simp), hdead]
    · exact not_or.2 ⟨heffect.ks, heffect.ne.symm⟩
  destroy := by
    intro m m' live q p hs hclient hp hrun hP
    obtain ⟨-, huse, hhold, hcalls⟩ := hs.destroy hp hrun
    rw [Balanced, hcalls, hclient, hhold]
    apply hP.dropAll hs.exclusive _ huse
    intro x
    rw [Memory.mem_framesOf]
    simp only [Memory.holding_of_live hp]
  same := by
    intro m m' live live' hhold huse hcalls hP
    rw [Balanced, hcalls, hhold]
    exact ⟨hP.lists, fun f => (huse f).trans (hP.inUse_iff f), hP.apart⟩

/-- The record of calls only grows. -/
theorem calls_kept (C : Memory → Nat → Nat → Bool) (calls : List (Nat × FrameCall)) :
    Kept C fun m _ => calls <:+ m.calls where
  map := by
    intro m m' live q p v f hs hclient hp hC heffect hP
    cases heffect with
    | page hf huse hhold hcalls =>
      rw [hcalls]
      exact hP.trans (List.suffix_cons ..)
    | table g hf hg hne huse hnone hhold hcalls =>
      rw [hcalls]
      exact hP.trans ((List.suffix_cons ..).trans (List.suffix_cons ..))
  unmap := by
    intro m m' live q v hs hclient heffect hP
    cases heffect with
    | absent hnone hm' => rwa [hm']
    | page f hf huse hhold hcalls hclient' =>
      rw [hcalls]
      exact hP.trans (List.suffix_cons ..)
  create := by
    intro m m' live q p hs hclient hp heffect hP
    rw [heffect.calls]
    exact hP.trans ((List.suffix_cons ..).trans (List.suffix_cons ..))
  destroy := by
    intro m m' live q p hs hclient hp hrun hP
    obtain ⟨-, -, -, hcalls⟩ := hs.destroy hp hrun
    rw [hcalls]
    exact hP.trans (List.suffix_append ..)
  same := by
    intro m m' live live' hhold huse hcalls hP
    rwa [hcalls]

/-! ## Reaping -/

variable {s s₀ s₁ : System} {es es₁ : List SpaceEvent} {p f : Nat} {o : ProcMem}

theorem mapsNew_clean (m : Memory) (pd v : Nat) (h : m.mapsNew pd v = true) :
    m.cleanAt pd v = true := by
  simp only [Memory.mapsNew, Bool.and_eq_true] at h
  exact h.1

theorem Booted.balanced (h : s.Booted) : Balanced s.mem.InUse s.mem s.procs where
  lists := by
    intro q
    rw [h.calls]
    exact ⟨List.nodup_nil, fun r => by simp [owned, h.holding]⟩
  inUse_iff := fun f => by simp [h.holding]
  apart := by
    intro k f hk
    rw [h.holding] at hk
    cases hk

/-- Calls for other frames and calls of other processes do not matter. -/
theorem mem_owned_append {since calls : List (Nat × FrameCall)} {q : Nat}
    (h : ∀ c ∈ since, c.2.frame = f → c.1 ≠ q) : f ∈ owned (since ++ calls) q ↔ f ∈ owned calls q := by
  induction since with
  | nil => rfl
  | cons c since ih =>
    rw [List.cons_append, ← ih fun c hc => h c (List.mem_cons_of_mem _ hc)]
    have hfirst := h c List.mem_cons_self
    obtain ⟨q', call⟩ := c
    rcases eq_or_ne q' q with rfl | hq
    · have hne : call.frame ≠ f := fun heq => hfirst heq rfl
      cases call with
      | alloc g =>
        rw [owned, if_pos rfl, List.mem_cons, or_iff_right]
        exact fun heq => hne heq.symm
      | free g =>
        rw [owned, if_pos rfl, List.mem_erase_of_ne]
        exact fun heq => hne heq.symm
    · rw [owned_cons_of_ne hq]

/-- Nothing is recorded for a process that does not exist. -/
theorem not_owned {reserved : Nat → Prop} (h : Balanced reserved s.mem s.procs)
    (hp : s.procs p = none) : f ∉ owned s.mem.calls p := by
  rw [(h.lists p).mem_iff]
  rintro ⟨a, ha⟩
  rw [Memory.holding_of_dead hp] at ha
  cases ha

/-- The reap of a process that exists always succeeds. -/
theorem reap_ok (h : s.Sound) (hp : s.procs p = some o) : ∃ s', s.step (.reap p) = .ok s' ∧
    s'.procs p = none ∧ s'.mem.calls = Memory.freed p (s.mem.framesOf o) ++ s.mem.calls := by
  have hs := h.memFor p
  have hin : ∀ f ∈ (s.memFor p).framesOf o, f < 8 * (s.memFor p).faBitmapSize := by
    intro f hf
    obtain ⟨a, ha⟩ := Memory.mem_framesOf.1 hf
    exact (hs.inUse hp ha).1
  obtain ⟨m, hfree⟩ : ∃ m, (s.memFor p).freeAll ((s.memFor p).framesOf o) = .ok m := by
    obtain ⟨bitmap, hfree, -⟩ := Memory.freeAll_spec hin
    exact ⟨_, hfree⟩
  obtain ⟨-, -, -, hcalls⟩ := hs.destroy hp hfree
  refine ⟨s.update m p none, ?_, Function.update_self .., hcalls⟩
  rw [System.step, deref_eq_ok.2 hp, ok_bind, hs.procDestroy_eq hp, hfree, ok_bind]
  rfl

/-- 32 MiB of memory, the first eight frames of it reserved. -/
def bootedSystem (phys : Mem) : System where
  mem := {
    faBitmap := fun a => if a = 0 then 0xFF else 0
    faBitmapSize := 0x400
    phys := phys
    kernelPd := 0
    client := 0
    calls := [] }
  procs := fun _ => none
  pidCounter := 1

theorem bootedSystem_booted (phys : Mem) : (bootedSystem phys).Booted where
  procs := fun _ => rfl
  pidCounter := rfl
  window := Nat.le_of_ble_eq_true rfl
  calls := rfl

/-- A file with one page to load, at 0x7C00000. -/
def onePageElf : Mem :=
  let header := ((Mem.store (fun _ => 0) 0 4 elfMagic).store 28 4 52).store 42 2 32 |>.store 44 2 1
  ((header.store 52 4 1).store 60 4 0x7C00000).store 72 4 4096

end System

end Kaku
