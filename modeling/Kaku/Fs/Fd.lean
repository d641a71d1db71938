-- SUMMARY: The global file table, the descriptors of a process, and what opening and closing does to both.
import Mathlib.Data.UInt
import Mathlib.Data.List.FinRange
import Mathlib.Logic.Function.Basic
import Kaku.Fault

/-!
# File descriptors

`fs/src/fd.c` and the descriptor functions of `proc/src/proc.c`. An open file has
one entry in the global table, found again by the `vnode_id` of its node, and
each descriptor of a process names such an entry by its index.
-/

namespace Kaku

/-! ## The global table -/

def fdFlagsRo : UInt8 := 0x1
def fdFlagsWo : UInt8 := 0x2
def fdFlagsRw : UInt8 := 0x4

/-- A `vfs_node`, as far as the tables look at it. -/
structure VfsNode where
  vnodeId : UInt32
  deriving DecidableEq

/-- Every reference that `ref_count` counts is an object on the kernel heap, so
the 32-bit counter does not wrap. -/
structure FdTableEntry where
  node : VfsNode
  refCount : Nat
  writeLock : Bool
  deriving DecidableEq

/-- `__fd_table`: a slot is null once its file has been closed. -/
abbrev FdTable := List (Option FdTableEntry)

def fdGet (t : FdTable) (fdGlobal : Nat) : Option FdTableEntry := t[fdGlobal]?.join

def fdAdd : FdTable → FdTableEntry → FdTable × Nat
  | [], entry => ([some entry], 0)
  | none :: t, entry => (some entry :: t, 0)
  | some e :: t, entry =>
    let (t, i) := fdAdd t entry
    (some e :: t, i + 1)

def fdNew (t : FdTable) (node : VfsNode) (flags : UInt8) : FdTable × Nat :=
  fdAdd t { node := node, refCount := 0, writeLock := flags &&& fdFlagsRo == 0 }

def fdFindByNode (t : FdTable) (node : VfsNode) : Option Nat :=
  t.findIdx? fun entry => entry.any fun e => e.node.vnodeId == node.vnodeId

def fdRemove (t : FdTable) (fdGlobal : Nat) : FdTable :=
  match fdGet t fdGlobal with
  | none => t
  | some entry =>
    if entry.refCount - 1 = 0 then t.set fdGlobal none
    else t.set fdGlobal (some { entry with refCount := entry.refCount - 1 })

/-! ## The descriptors of a process -/

def maxFds : Nat := 16

structure ProcFdEntry where
  globalFd : Nat
  offset : UInt32
  flags : UInt8
  deriving DecidableEq

/-- `fds` of a `proc`. -/
abbrev Fds := Vector (Option ProcFdEntry) maxFds

/-- What `kmemset` leaves in a new `proc`. -/
def Fds.closed : Fds := Vector.replicate maxFds none

/-- The slot the loop of `proc_alloc_fd` stops at. -/
def Fds.firstFree (fds : Fds) : Option (Fin maxFds) :=
  (List.finRange maxFds).find? fun i => 3 ≤ i.val && (fds.get i).isNone

/-- `fd_get(i)->ref_count++`. -/
def fdRef (t : FdTable) (i : Nat) : K FdTable :=
  match fdGet t i with
  | none => .error .wild
  | some entry => pure (t.set i (some { entry with refCount := entry.refCount + 1 }))

/-- `proc_alloc_fd` returns the descriptor, or -1. -/
def procAllocFd (t : FdTable) (fds : Fds) (node : VfsNode) (flags : UInt8) :
    K (FdTable × Fds × UInt32) :=
  match fds.firstFree with
  | none => pure (t, fds, 0xFFFFFFFF)
  | some i => do
    let (t, entryIndex) :=
      match fdFindByNode t node with
      | some j => (t, j)
      | none => fdNew t node flags
    let t ← fdRef t entryIndex
    let pfe : ProcFdEntry := { globalFd := entryIndex, offset := 0, flags := flags }
    pure (t, fds.set i.val (some pfe) i.isLt, UInt32.ofNat i.val)

/-- `p->fds[fd]`; nothing in the source checks the index. -/
def Fds.slot (fds : Fds) (fd : UInt32) : K (Option ProcFdEntry) :=
  if h : fd.toNat < maxFds then pure (fds.get ⟨fd.toNat, h⟩) else .error .wild

/-- What `proc_fd_read_file` and `proc_fd_write_file` have in common: `allowed`
are the flags one of which the descriptor must have, `moved` is what the file
system returns. Gives the result and `*sc_ret`. -/
def procFdAccess (allowed : UInt8) (t : FdTable) (fds : Fds) (fd moved : UInt32) :
    K (UInt32 × UInt32) := do
  match ← fds.slot fd with
  | none => pure (0, 2)
  | some pfe =>
    if pfe.flags &&& allowed = 0 then pure (0, 2)
    else
      match fdGet t pfe.globalFd with
      | none => .error .wild
      | some _ => pure (moved, 0)

def procFdReadFile : FdTable → Fds → UInt32 → UInt32 → K (UInt32 × UInt32) :=
  procFdAccess (fdFlagsRo ||| fdFlagsRw)

def procFdWriteFile : FdTable → Fds → UInt32 → UInt32 → K (UInt32 × UInt32) :=
  procFdAccess (fdFlagsWo ||| fdFlagsRw)

/-- `proc_close_fd` reads through `p->fds[fd]` before it looks at anything else. -/
def procCloseFd (t : FdTable) (fds : Fds) (fd : UInt32) : K (FdTable × Fds) := do
  match ← fds.slot fd with
  | none => .error .wild
  | some pfe =>
    match fdGet t pfe.globalFd with
    | none => pure (t, fds)
    | some _ => pure (fdRemove t pfe.globalFd, fds.setIfInBounds fd.toNat none)

/-! ## What the operations do to the table -/

variable {t t' t₁ : FdTable} {fds fds' : Fds} {node : VfsNode} {flags : UInt8}
  {e : FdTableEntry} {i j : Nat} {fd ret : UInt32} {refs : Nat → Nat}

theorem lt_of_fdGet (h : fdGet t i = some e) : i < t.length := by
  by_contra hout
  simp [fdGet, List.getElem?_eq_none (not_lt.1 hout)] at h

theorem fdGet_set (hi : i < t.length) (x : Option FdTableEntry) (j : Nat) :
    fdGet (t.set i x) j = if j = i then x else fdGet t j := by
  rw [fdGet, List.getElem?_set]
  split
  · rename_i hij
    subst hij
    rw [if_pos rfl]
    rfl
  · rename_i hij
    rw [if_neg (Ne.symm hij), fdGet]

/-- A new entry goes to a free slot, and the other slots stay. -/
theorem fdAdd_spec (t : FdTable) (e : FdTableEntry) :
    fdGet t (fdAdd t e).2 = none ∧
      ∀ i, fdGet (fdAdd t e).1 i = if i = (fdAdd t e).2 then some e else fdGet t i := by
  induction t with
  | nil =>
    refine ⟨rfl, fun i => ?_⟩
    cases i <;> simp [fdAdd, fdGet]
  | cons x t ih =>
    cases x with
    | none =>
      refine ⟨rfl, fun i => ?_⟩
      cases i <;> simp [fdAdd, fdGet]
    | some first =>
      obtain ⟨hfree, hget⟩ := ih
      refine ⟨by simpa [fdAdd, fdGet] using hfree, fun i => ?_⟩
      cases i with
      | zero => simp [fdAdd, fdGet]
      | succ i => simpa [fdAdd, fdGet] using hget i

theorem fdNew_spec (t : FdTable) (node : VfsNode) (flags : UInt8) :
    fdGet t (fdNew t node flags).2 = none ∧ ∀ i, fdGet (fdNew t node flags).1 i =
      if i = (fdNew t node flags).2 then
        some { node := node, refCount := 0, writeLock := flags &&& fdFlagsRo == 0 }
      else fdGet t i :=
  fdAdd_spec t _

theorem fdFindByNode_none (h : fdFindByNode t node = none) (hi : fdGet t i = some e) :
    e.node.vnodeId ≠ node.vnodeId := by
  rw [fdFindByNode, List.findIdx?_eq_none_iff] at h
  have hlt := lt_of_fdGet hi
  have hx : t[i] = some e := by simpa [fdGet, List.getElem?_eq_getElem hlt] using hi
  simpa [hx] using h t[i] (List.getElem_mem hlt)

theorem fdRef_spec (h : fdRef t i = .ok t') : ∃ e, fdGet t i = some e ∧
    ∀ j, fdGet t' j = if j = i then some { e with refCount := e.refCount + 1 } else fdGet t j := by
  unfold fdRef at h
  split at h
  · cases h
  · rename_i e he
    rw [pure_eq_ok] at h
    exact ⟨e, he, fun j => h ▸ fdGet_set (lt_of_fdGet he) _ j⟩

theorem fdRemove_spec (h : fdGet t i = some e) (j : Nat) : fdGet (fdRemove t i) j =
    if j = i then if e.refCount - 1 = 0 then none else some { e with refCount := e.refCount - 1 }
    else fdGet t j := by
  simp only [fdRemove, h]
  split <;> exact fdGet_set (lt_of_fdGet h) _ j

/-! ## Reference counts -/

namespace FdTable

/-- The entries count the references `refs` to each slot, and no file has two. -/
structure Counts (t : FdTable) (refs : Nat → Nat) : Prop where
  named : ∀ i, 0 < refs i → ∃ e, fdGet t i = some e
  counted : ∀ i e, fdGet t i = some e → e.refCount = refs i
  distinct : ∀ i j e e', fdGet t i = some e → fdGet t j = some e' →
    e.node.vnodeId = e'.node.vnodeId → i = j

/-- Besides, there is no entry that nobody refers to. -/
structure Exact (t : FdTable) (refs : Nat → Nat) : Prop extends Counts t refs where
  used : ∀ i e, fdGet t i = some e → 0 < refs i

theorem Exact.present (ht : t.Exact refs) (i : Nat) :
    (∃ e, fdGet t i = some e) ↔ 0 < refs i :=
  ⟨fun ⟨e, he⟩ => ht.used i e he, ht.named i⟩

/-- Take a reference to an entry. -/
theorem Counts.ref (ht : t.Counts refs) (h : fdRef t j = .ok t') :
    t'.Counts (Function.update refs j (refs j + 1)) := by
  obtain ⟨e, he, hget⟩ := fdRef_spec h
  -- The nodes stay where they are.
  have hnode : ∀ i e', fdGet t' i = some e' → ∃ e₀, fdGet t i = some e₀ ∧ e₀.node = e'.node := by
    intro i e' hi
    rw [hget] at hi
    split at hi
    · rename_i hij
      cases hi
      exact ⟨e, hij ▸ he, rfl⟩
    · exact ⟨e', hi, rfl⟩
  constructor
  · intro i hi
    rw [hget]
    by_cases hij : i = j
    · simp [hij]
    · simpa [hij] using ht.named i (by simpa [hij] using hi)
  · intro i e' hi
    rw [hget] at hi
    by_cases hij : i = j
    · subst hij
      simp only [if_true, Option.some.injEq] at hi
      simp [← hi, ht.counted i e he]
    · rw [if_neg hij] at hi
      simpa [hij] using ht.counted i e' hi
  · intro i i' e₁ e₂ h₁ h₂ hid
    obtain ⟨o₁, ho₁, hn₁⟩ := hnode i e₁ h₁
    obtain ⟨o₂, ho₂, hn₂⟩ := hnode i' e₂ h₂
    exact ht.distinct i i' o₁ o₂ ho₁ ho₂ (by rw [hn₁, hn₂, hid])

/-- The reference makes up for an entry that nobody referred to. -/
theorem Counts.ref_exact (ht : t.Counts refs)
    (hused : ∀ i ≠ j, ∀ e, fdGet t i = some e → 0 < refs i) (h : fdRef t j = .ok t') :
    t'.Exact (Function.update refs j (refs j + 1)) where
  toCounts := ht.ref h
  used := by
    intro i e hi
    obtain ⟨e₀, -, hget⟩ := fdRef_spec h
    rw [hget] at hi
    by_cases hij : i = j
    · simp [hij]
    · rw [if_neg hij] at hi
      simpa [hij] using hused i hij e hi

/-- Enter a file that has no entry; nobody refers to it yet. -/
theorem Counts.new (ht : t.Counts refs) (h : fdFindByNode t node = none) :
    (fdNew t node flags).1.Counts refs := by
  obtain ⟨hfree, hget⟩ := fdNew_spec t node flags
  generalize (fdNew t node flags).2 = j at hfree hget
  have hunused : refs j = 0 := by
    by_contra hpos
    obtain ⟨e, he⟩ := ht.named j (Nat.pos_of_ne_zero hpos)
    rw [hfree] at he
    cases he
  constructor
  · intro i hi
    have hij : i ≠ j := fun hij => by simp [hij, hunused] at hi
    rw [hget, if_neg hij]
    exact ht.named i hi
  · intro i e hi
    rw [hget] at hi
    split at hi
    · rename_i hij
      cases hi
      exact hij ▸ hunused.symm
    · exact ht.counted i e hi
  · intro i i' e e' hi hi' hid
    rw [hget] at hi hi'
    split at hi <;> split at hi'
    · rename_i hij hij'
      rw [hij, hij']
    · cases hi
      exact absurd hid.symm (fdFindByNode_none h hi')
    · cases hi'
      exact absurd hid (fdFindByNode_none h hi)
    · exact ht.distinct i i' e e' hi hi' hid

/-- Give a reference back. -/
theorem Exact.remove (ht : t.Exact refs) (h : fdGet t j = some e) :
    (fdRemove t j).Exact (Function.update refs j (refs j - 1)) := by
  have hcount := ht.counted j e h
  have hget := fdRemove_spec h
  have hnode : ∀ i e', fdGet (fdRemove t j) i = some e' →
      ∃ e₀, fdGet t i = some e₀ ∧ e₀.node = e'.node := by
    intro i e' hi
    rw [hget] at hi
    split at hi
    · rename_i hij
      split at hi
      · cases hi
      · cases hi
        exact ⟨e, hij ▸ h, rfl⟩
    · exact ⟨e', hi, rfl⟩
  refine ⟨⟨?_, ?_, ?_⟩, ?_⟩
  · intro i hi
    rw [hget]
    by_cases hij : i = j
    · subst hij
      rw [Function.update_self] at hi
      simp [show ¬ e.refCount - 1 = 0 by omega]
    · simpa [hij] using ht.named i (by simpa [hij] using hi)
  · intro i e' hi
    rw [hget] at hi
    by_cases hij : i = j
    · subst hij
      rw [if_pos rfl] at hi
      split at hi
      · cases hi
      · cases hi
        simp [hcount]
    · rw [if_neg hij] at hi
      simpa [hij] using ht.counted i e' hi
  · intro i i' e₁ e₂ h₁ h₂ hid
    obtain ⟨o₁, ho₁, hn₁⟩ := hnode i e₁ h₁
    obtain ⟨o₂, ho₂, hn₂⟩ := hnode i' e₂ h₂
    exact ht.distinct i i' o₁ o₂ ho₁ ho₂ (by rw [hn₁, hn₂, hid])
  · intro i e' hi
    rw [hget] at hi
    by_cases hij : i = j
    · subst hij
      rw [if_pos rfl] at hi
      split at hi
      · cases hi
      · rw [Function.update_self]
        omega
    · rw [if_neg hij] at hi
      simpa [hij] using ht.used i e' hi

end FdTable

/-! ## Opening and closing -/

theorem Fds.firstFree_spec {v : Fin maxFds} (h : fds.firstFree = some v) :
    3 ≤ v.val ∧ fds.get v = none := by
  simpa using List.find?_some h

/-- `proc_alloc_fd` does nothing, or it stores a descriptor in a free slot and
counts it. -/
theorem procAllocFd_spec (ht : t.Exact refs)
    (h : procAllocFd t fds node flags = .ok (t', fds', ret)) :
    t' = t ∧ fds' = fds ∨
      ∃ (v : Fin maxFds) (pfe : ProcFdEntry), 3 ≤ v.val ∧ fds.get v = none ∧
        fds' = fds.set v.val (some pfe) v.isLt ∧
        t'.Exact (Function.update refs pfe.globalFd (refs pfe.globalFd + 1)) := by
  unfold procAllocFd at h
  cases hv : fds.firstFree with
  | none =>
    simp only [hv, pure_eq_ok, Prod.mk.injEq] at h
    exact .inl ⟨h.1.symm, h.2.1.symm⟩
  | some v =>
    obtain ⟨hlow, hfree⟩ := Fds.firstFree_spec hv
    refine .inr ?_
    simp only [hv, bind_eq_ok, pure_eq_ok, Prod.mk.injEq] at h
    obtain ⟨t₂, href, rfl, rfl, -⟩ := h
    refine ⟨v, _, hlow, hfree, rfl, ?_⟩
    cases hfound : fdFindByNode t node with
    | some j =>
      simp only [hfound] at href ⊢
      exact ht.toCounts.ref_exact (fun i _ => ht.used i) href
    | none =>
      simp only [hfound] at href ⊢
      refine (ht.toCounts.new hfound).ref_exact (fun i hi e he => ?_) href
      rw [(fdNew_spec t node flags).2, if_neg hi] at he
      exact ht.used i e he

/-- What `proc_close_fd` does to a descriptor that is open. -/
theorem procCloseFd_spec (ht : t.Exact refs) (h : procCloseFd t fds fd = .ok (t', fds'))
    (hrefs : ∀ v pfe, fds.get v = some pfe → 0 < refs pfe.globalFd) :
    ∃ (v : Fin maxFds) (pfe : ProcFdEntry), v.val = fd.toNat ∧ fds.get v = some pfe ∧
      fds' = fds.set v.val none v.isLt ∧
      t'.Exact (Function.update refs pfe.globalFd (refs pfe.globalFd - 1)) := by
  simp only [procCloseFd, Fds.slot, bind_eq_ok] at h
  obtain ⟨found, hslot, h⟩ := h
  split at hslot
  · rename_i hlt
    rw [pure_eq_ok] at hslot
    cases found with
    | none => cases h
    | some pfe =>
      obtain ⟨e, he⟩ := ht.named _ (hrefs _ pfe hslot)
      simp only [he, pure_eq_ok, Prod.mk.injEq] at h
      obtain ⟨rfl, rfl⟩ := h
      refine ⟨⟨fd.toNat, hlt⟩, pfe, rfl, hslot, ?_, ht.remove he⟩
      ext i hi
      simp only [Vector.getElem_setIfInBounds hi, Vector.getElem_set]
  · cases hslot

end Kaku
