-- SUMMARY: `readdir` of user programs: it returns all entries of a directory exactly if the kernel can read the inode of each.
import Kaku.Fs.Readdir
import Kaku.User.MallocRun

/-!
# Reading a whole directory

`readdir` of `user_fs/lib/stdio.h`. The program cannot know how many entries there are. It asks
for as many as its array has room for, and as long as the array comes back full it doubles the
array and asks again.
-/

namespace Kaku

/-- The answers of the kernel to the calls of the allocator, one after the other. They depend on
the memory that has been handed out, and none of that is handed out again. -/
structure Answers where
  os : Nat → List Extent → Os
  fresh : ∀ i owned, UHeap.FreshAnswers (os i owned) owned

/-- What `readdir` returns, and what it leaves. -/
structure DirRead where
  entries : Nat
  countOut : Nat
  heap : UHeap
  volume : Volume
  /-- It has returned because there was no memory. -/
  refused : Bool

namespace UHeap

/-- `readdir_raw`: the kernel writes to the memory of the program. -/
def readdirRaw (fs : Mount) (path : List UInt8) (buf bufLen : Nat) (h : UHeap) (v : Volume) :
    K (Int × UHeap × Volume) :=
  let (m, r) := fs.syscallReaddir path buf bufLen h.mem v
  r.map fun (n, v) => (n, { h with mem := m }, v)

/-- The loop, before its `i`-th call of `realloc`. A capacity of 32 bits is 0 after 32 doublings
at the latest, and `realloc` returns null then. -/
def readdirLoop (answers : Answers) (fs : Mount) (path : List UInt8) :
    (fuel i cap entries : Nat) → UHeap → Volume → K DirRead
  | 0, _, _, _, _, _ => .error .hang
  | fuel + 1, i, cap, entries, h, v => do
    let (n, h, v) ← h.readdirRaw fs path entries (addr32 (cap * dirEntryBytes)) v
    let os := answers.os i h.owned
    if n < 0 then pure ⟨0, 0, h.free os entries, v, false⟩
    else if n < cap then pure ⟨entries, n.toNat, h, v, false⟩
    else do
      let cap := addr32 (cap * 2)
      let (ne, h) ← h.realloc os entries (addr32 (cap * dirEntryBytes))
      if ne = 0 then pure ⟨0, 0, h.free os entries, v, true⟩
      else readdirLoop answers fs path fuel (i + 1) cap ne h v

def readdir (answers : Answers) (fs : Mount) (path : List UInt8) (h : UHeap) (v : Volume) :
    K DirRead := do
  let (entries, h) ← h.malloc (answers.os 0 h.owned) (16 * dirEntryBytes)
  if entries = 0 then pure ⟨0, 0, h, v, true⟩
  else readdirLoop answers fs path 32 1 16 entries h v

end UHeap

open UHeap in
/-- The array is an allocation of its own, with a record for each entry. -/
def DirRead.Complete (r : DirRead) (live : List Alloc) (es : List Entry) : Prop :=
  r.countOut = es.length ∧
    (∃ bytes, r.heap.Inv (⟨r.entries, bytes⟩ :: live) ∧ es.length * dirEntryBytes ≤ bytes.length) ∧
    ∀ k (hk : k < es.length), HoldsEntry r.heap.mem (r.entries + k * dirEntryBytes) es[k]

namespace UHeap

variable {answers : Answers} {fs : Mount} {path : List UInt8} {h h' : UHeap} {live : List Alloc}
  {v v' : Volume} {es : List Entry} {bytes : List UInt8} {r : DirRead}
  {cap entries fuel i p size t : Nat}

/-! ## The arrays -/

/-- The first array. -/
theorem malloc_array {os : Os} (hinv : h.Inv live) (hos : FreshAnswers os h.owned)
    (hsize : Fits size) : ∃ p h', h.malloc os size = .ok (p, h') ∧
      (p ≠ 0 → ∃ bytes, h'.Inv (⟨p, bytes⟩ :: live) ∧ bytes.length = size) := by
  obtain ⟨p, h', hrun, hinv'⟩ := malloc_step hinv hos hsize
  refine ⟨p, h', hrun, fun hp => ⟨h'.mem.peek p size, ?_, Mem.length_peek⟩⟩
  rwa [give, if_neg hp] at hinv'

/-- The next array, in place of the last one. -/
theorem realloc_array {os : Os} (hinv : h.Inv (⟨entries, bytes⟩ :: live))
    (hos : FreshAnswers os h.owned) (hpos : size ≠ 0) (hsize : Fits size) :
    ∃ p h', h.realloc os entries size = .ok (p, h') ∧
      (p ≠ 0 → ∃ bytes', h'.Inv (⟨p, bytes'⟩ :: live) ∧ bytes'.length = size) := by
  obtain ⟨p, h', hrun, hinv'⟩ :=
    realloc_step hinv hos (.inr ⟨_, List.mem_cons_self, rfl⟩) hsize
  refine ⟨p, h', hrun, fun hp => ?_⟩
  have hdrop : drop entries (⟨entries, bytes⟩ :: live) = live := by simp [drop]
  simp only [Call.effect, hpos, and_false, if_false, if_neg hp, hdrop] at hinv'
  refine ⟨_, hinv', ?_⟩
  have hkept : ((contents entries (⟨entries, bytes⟩ :: live)).take size).length ≤ size :=
    List.length_take_le size _
  rw [List.length_append, Mem.length_peek]
  omega

/-! ## The rounds -/

section Rounds

variable (hpath : 0 ∉ path) (hfits : Mount.PathFits path) (hlists : fs.Lists v path es)
  (hslots : ∀ e ∈ es, fs.HasSlot v e.entryInode)
include hpath hfits hlists hslots

/-- After a call the records are in the array. -/
theorem readdirRaw_spec (hinv : h.Inv (⟨entries, bytes⟩ :: live))
    (hlen : bytes.length = cap * dirEntryBytes) (t : Nat) :
    ∃ h' bytes' u, h.readdirRaw fs path entries (cap * dirEntryBytes) (v.after t) =
        .ok (((min es.length cap : Nat) : Int), h', v.after u) ∧
      h'.Inv (⟨entries, bytes'⟩ :: live) ∧ bytes'.length = cap * dirEntryBytes ∧
      ∀ k (hk : k < es.length), k < cap →
        HoldsEntry h'.mem (entries + k * dirEntryBytes) es[k] := by
  have hcap : cap * dirEntryBytes / dirEntryBytes = cap := Nat.mul_div_cancel cap (by decide)
  obtain ⟨m, u, hcall, hholds⟩ :=
    Mount.syscallReaddir_spec entries (cap * dirEntryBytes) h.mem hpath hfits hlists hslots t
  rw [hcap] at hcall hholds
  have houtside (x : Nat) (hx : x < entries ∨ entries + bytes.length ≤ x) : m x = h.mem x := by
    rw [hlen] at hx
    have hframe : (fs.syscallReaddir path entries (cap * dirEntryBytes) h.mem (v.after t)).1 x =
        h.mem x := Mount.syscallReaddir_outside hx
    rwa [hcall] at hframe
  refine ⟨{ h with mem := m }, m.peek entries bytes.length, u, ?_, ?_, ?_, hholds⟩
  · rw [readdirRaw, hcall]
    rfl
  · refine hinv.overwrite _ houtside (by rw [Mem.length_peek]) ?_
    rw [Mem.length_peek]
  · rw [Mem.length_peek, hlen]

/-- A round that leaves room in the array is the last one. -/
theorem readdirLoop_last (answers : Answers) (fuel i : Nat)
    (hinv : h.Inv (⟨entries, bytes⟩ :: live)) (hlen : bytes.length = cap * dirEntryBytes)
    (hcap : cap < 2 ^ 23) (hroom : es.length < cap) (t : Nat) :
    ∃ r, readdirLoop answers fs path (fuel + 1) i cap entries h (v.after t) = .ok r ∧
      r.Complete live es := by
  obtain ⟨h', bytes', u, hcall, hinv', hlen', hholds⟩ :=
    readdirRaw_spec hpath hfits hlists hslots hinv hlen t
  have hbuf : addr32 (cap * dirEntryBytes) = cap * dirEntryBytes := Nat.mod_eq_of_lt (by
    rw [dirEntryBytes]
    omega)
  rw [Nat.min_eq_left hroom.le] at hcall
  refine ⟨⟨entries, es.length, h', v.after u, false⟩, ?_, rfl, ⟨bytes', hinv', ?_⟩, fun k hk =>
    hholds k hk (hk.trans hroom)⟩
  · rw [readdirLoop, hbuf, hcall, ok_bind]
    simp only
    rw [if_neg (by omega), if_pos (by omega)]
    rfl
  · rw [hlen']
    exact Nat.mul_le_mul_right _ hroom.le

variable (hfew : es.length < 2 ^ 22)
include hfew

/-- After any other round the array is doubled, if there is memory. -/
theorem readdirLoop_grow (answers : Answers) (fuel i : Nat)
    (hinv : h.Inv (⟨entries, bytes⟩ :: live)) (hlen : bytes.length = cap * dirEntryBytes)
    (hpos : 0 < cap) (hfull : cap ≤ es.length) (t : Nat) :
    (∃ r, readdirLoop answers fs path (fuel + 1) i cap entries h (v.after t) = .ok r ∧
      r.refused = true) ∨
    ∃ entries' bytes' h' u, readdirLoop answers fs path (fuel + 1) i cap entries h (v.after t) =
        readdirLoop answers fs path fuel (i + 1) (cap * 2) entries' h' (v.after u) ∧
      h'.Inv (⟨entries', bytes'⟩ :: live) ∧ bytes'.length = cap * 2 * dirEntryBytes := by
  obtain ⟨h₁, bytes₁, u, hcall, hinv₁, -, -⟩ :=
    readdirRaw_spec hpath hfits hlists hslots hinv hlen t
  have hbuf (c : Nat) (hc : c < 2 ^ 23) : addr32 (c * dirEntryBytes) = c * dirEntryBytes :=
    Nat.mod_eq_of_lt (by
      rw [dirEntryBytes]
      omega)
  have hdouble : addr32 (cap * 2) = cap * 2 := Nat.mod_eq_of_lt (by omega)
  have hsize : Fits (cap * 2 * dirEntryBytes) := by
    rw [Fits, dirEntryBytes, memHeader]
    omega
  obtain ⟨p, h', hrealloc, harray⟩ := realloc_array hinv₁ (answers.fresh i h₁.owned)
    (Nat.mul_pos (by omega) (by decide)).ne' hsize
  rw [Nat.min_eq_right hfull] at hcall
  have hround : readdirLoop answers fs path (fuel + 1) i cap entries h (v.after t) =
      if p = 0 then
        .ok ⟨0, 0, h'.free (answers.os i h₁.owned) entries, v.after u, true⟩
      else readdirLoop answers fs path fuel (i + 1) (cap * 2) p h' (v.after u) := by
    rw [readdirLoop, hbuf cap (by omega), hcall, ok_bind]
    simp only
    rw [if_neg (by omega), if_neg (by omega), hdouble, hbuf _ (by omega), hrealloc, ok_bind]
    rfl
  rcases eq_or_ne p 0 with hp | hp
  · rw [if_pos hp] at hround
    exact .inl ⟨_, hround, rfl⟩
  · rw [if_neg hp] at hround
    obtain ⟨bytes', hinv', hlen'⟩ := harray hp
    exact .inr ⟨p, bytes', h', u, hround, hinv', hlen'⟩

/-- As each other round doubles the array, some round is the last one. -/
theorem readdirLoop_spec (hinv : h.Inv (⟨entries, bytes⟩ :: live))
    (hlen : bytes.length = cap * dirEntryBytes) (hpos : 0 < cap) (hcap : cap < 2 ^ 23)
    (hfuel : es.length < cap * 2 ^ fuel) (t : Nat) :
    ∃ r, readdirLoop answers fs path (fuel + 1) i cap entries h (v.after t) = .ok r ∧
      (r.refused = false → r.Complete live es) := by
  induction fuel generalizing i cap entries h bytes t with
  | zero =>
    obtain ⟨r, hrun, hcomplete⟩ :=
      readdirLoop_last hpath hfits hlists hslots answers 0 i hinv hlen hcap (by omega) t
    exact ⟨r, hrun, fun _ => hcomplete⟩
  | succ fuel ih =>
    rcases Nat.lt_or_ge es.length cap with hroom | hfull
    · obtain ⟨r, hrun, hcomplete⟩ :=
        readdirLoop_last hpath hfits hlists hslots answers (fuel + 1) i hinv hlen hcap hroom t
      exact ⟨r, hrun, fun _ => hcomplete⟩
    · rcases readdirLoop_grow hpath hfits hlists hslots hfew answers (fuel + 1) i hinv hlen hpos
        hfull t with ⟨r, hrun, hrefused⟩ | ⟨entries', bytes', h', u, hrun, hinv', hlen'⟩
      · exact ⟨r, hrun, fun hserved => by simp [hserved] at hrefused⟩
      · rw [hrun]
        refine ih hinv' hlen' (by omega) (by omega) ?_ u
        rw [Nat.mul_assoc, ← Nat.pow_succ']
        exact hfuel

theorem readdir_complete (answers : Answers) (hinv : h.Inv live) :
    ∃ r, h.readdir answers fs path v = .ok r ∧ (r.refused = false → r.Complete live es) := by
  obtain ⟨entries, h', hrun, harray⟩ := malloc_array hinv (answers.fresh 0 h.owned)
    (show 16 * dirEntryBytes + memHeader < 2 ^ 32 by decide)
  rw [readdir, hrun, ok_bind]
  simp only
  split
  · exact ⟨_, rfl, fun hserved => by cases hserved⟩
  · rename_i hp
    obtain ⟨bytes, hinv', hlen⟩ := harray hp
    exact readdirLoop_spec hpath hfits hlists hslots hfew hinv' hlen (by omega) (by omega)
      (by omega) v.transfers

end Rounds

/-! ## What has been read -/

section Read

variable (hr : fs.Reliable) (hpath : 0 ∉ path) (hlists : fs.Lists v path es)
include hr hpath hlists

/-- The last round has listed all entries. -/
theorem of_readdirLoop
    (hrun : readdirLoop answers fs path fuel i cap entries h (v.after t) = .ok r)
    (hentries : r.entries ≠ 0) (hcount : r.countOut = es.length) :
    Mount.PathFits path ∧ ∀ e ∈ es, fs.HasSlot v e.entryInode := by
  induction fuel generalizing i cap entries h t with
  | zero => cases hrun
  | succ fuel ih =>
    rw [readdirLoop] at hrun
    obtain ⟨⟨n, h₁, w⟩, hraw, hrun⟩ := bind_eq_ok.1 hrun
    rw [readdirRaw] at hraw
    generalize hcall : fs.syscallReaddir path entries (addr32 (cap * dirEntryBytes)) h.mem
      (v.after t) = answer at hraw
    obtain ⟨m, answer⟩ := answer
    cases answer with
    | error fault => cases hraw
    | ok answer =>
      cases hraw
      simp only at hrun
      split at hrun
      · cases hrun
        exact absurd rfl hentries
      · rename_i hlisted
        obtain ⟨hfits, ⟨u, hw⟩, hslots⟩ :=
          Mount.of_syscallReaddir hr hpath hlists hcall (Int.not_lt.1 hlisted)
        split at hrun
        · cases hrun
          have hall : answer.1.toNat = es.length := hcount
          exact ⟨hfits, hslots (by omega)⟩
        · obtain ⟨⟨ne, h₂⟩, -, hrun⟩ := bind_eq_ok.1 hrun
          simp only at hrun
          split at hrun
          · cases hrun
            exact absurd rfl hentries
          · rw [hw] at hrun
            exact ih hrun

theorem of_readdir (hrun : h.readdir answers fs path v = .ok r) (hcomplete : r.Complete live es) :
    Mount.PathFits path ∧ ∀ e ∈ es, fs.HasSlot v e.entryInode := by
  obtain ⟨hcount, ⟨bytes, hinv, -⟩, -⟩ := hcomplete
  have hentries : r.entries ≠ 0 := hinv.ptr_pos List.mem_cons_self
  rw [readdir] at hrun
  obtain ⟨⟨entries, h'⟩, -, hrun⟩ := bind_eq_ok.1 hrun
  simp only at hrun
  split at hrun
  · cases hrun
    exact absurd rfl hentries
  · exact of_readdirLoop hr hpath hlists (t := v.transfers) hrun hentries hcount

/-- A directory with a record that is not in use is not read. -/
theorem unused_not_read {e : Entry} (he : e ∈ es) (hunused : e.entryInode = 0)
    (hnumbers : fs.nbBlockGroups * v.sbNbInodesInGroup < 2 ^ 32) :
    ¬ ∃ r, h.readdir answers fs path v = .ok r ∧ r.Complete live es := by
  rintro ⟨r, hread, hcomplete⟩
  have hslot := (of_readdir hr hpath hlists hread hcomplete).2 e he
  rw [hunused] at hslot
  exact Mount.not_hasSlot_zero hnumbers hslot

end Read

/-- Where it has memory, `readdir` returns all entries of a directory exactly if no field of the
node is spoiled by the path, and each entry has an inode number with a slot in the inode table.
Each call of the kernel writes inside its buffer only. -/
theorem readdir_complete_iff (hr : fs.Reliable) (hrun : Run h live) (hpath : 0 ∉ path)
    (hlists : fs.Lists v path es) (hfew : es.length < 2 ^ 22)
    (hmem : ∀ r, h.readdir answers fs path v = .ok r → r.refused = false) :
    ((∃ r, h.readdir answers fs path v = .ok r ∧ r.Complete live es) ↔
      Mount.PathFits path ∧ ∀ e ∈ es, fs.HasSlot v e.entryInode) ∧
    ∀ (fs : Mount) path buf bufLen m v x, x < buf ∨ buf + bufLen ≤ x →
      (fs.syscallReaddir path buf bufLen m v).1 x = m x := by
  refine ⟨⟨?_, ?_⟩, fun fs path buf bufLen m v x hx => Mount.syscallReaddir_outside hx⟩
  · rintro ⟨r, hread, hcomplete⟩
    exact of_readdir hr hpath hlists hread hcomplete
  · rintro ⟨hfits, hslots⟩
    obtain ⟨r, hread, hcomplete⟩ :=
      readdir_complete hpath hfits hlists hslots hfew answers hrun.inv
    exact ⟨r, hread, hcomplete (hmem r hread)⟩

/-- A kernel that has one chunk of small blocks, at 32 KiB. -/
def oneChunk : Answers where
  os _ owned :=
    { sbrk := fun n => if owned = [] ∧ n ≤ 65536 then 0x8000 else sbrkFailed
      mmap := fun _ => 0
      unmapped := fun _ => 0 }
  fresh i owned :=
    { sbrk := by
        intro n
        simp only
        split
        · rename_i hfree
          obtain ⟨rfl, hn⟩ := hfree
          exact .inr ⟨by decide, by omega, by simp⟩
        · exact .inl rfl
      mmap := fun _ => .inl rfl }

theorem root_lists (n : Nat) :
    Mount.tinyMount.Lists Mount.rootVolume (dotted (n + 1)) Mount.rootEntries.entries := by
  intro t
  obtain ⟨u, hwalk⟩ := Mount.resolvePath_dotted n t
  obtain ⟨w, hlist⟩ := Mount.rootEntries.listDir Mount.tinyMount_good u
  exact ⟨Mount.rootInode, u, w, hwalk, Mount.root_facts.2.1, hlist⟩

/-- The root directory, as `/.`. -/
theorem readdir_complete_root : ∃ r,
    emptyHeap.readdir oneChunk Mount.tinyMount (dotted 1) Mount.rootVolume = .ok r ∧
      r.Complete [] Mount.rootEntries.entries := by
  obtain ⟨r', hrun', hserved⟩ := toOption_any.1 (show ((emptyHeap.readdir oneChunk Mount.tinyMount
    (dotted 1) Mount.rootVolume).toOption.any fun r => !r.refused) = true by decide)
  have hinodes : ∀ e ∈ Mount.rootEntries.entries, e.entryInode = 2 := by decide
  refine ((readdir_complete_iff (fun _ _ => rfl) (.start ⟨fun _ _ => rfl, rfl, rfl⟩) (by decide)
    (root_lists 0) (by decide) fun r hrun => ?_).1).2 ⟨⟨by decide, by decide⟩, fun e he => ?_⟩
  · rw [hrun'] at hrun
    cases hrun
    simpa using hserved
  · rw [hinodes e he]
    exact ⟨(5, 128), by decide, by decide⟩

/-- The root directory, which has two entries, as `/.` 130 times over: `readdir` returns null and
no entries. -/
theorem dotted_not_read : (dotted 130).length = 260 ∧
    Mount.tinyMount.Lists Mount.rootVolume (dotted 130) Mount.rootEntries.entries ∧
    Mount.rootEntries.entries.length = 2 ∧
    ∃ r, emptyHeap.readdir oneChunk Mount.tinyMount (dotted 130) Mount.rootVolume = .ok r ∧
      r.refused = false ∧ r.entries = 0 ∧ r.countOut = 0 := by
  obtain ⟨⟨entries, h⟩, hmalloc, hentries⟩ := toOption_any.1 (show ((emptyHeap.malloc
    (oneChunk.os 0 emptyHeap.owned) (16 * dirEntryBytes)).toOption.any fun r => r.1 != 0) = true by
      decide)
  obtain ⟨u, hwalk⟩ := Mount.resolvePath_dotted 129 Mount.rootVolume.transfers
  have hcall (bufLen : Nat) : Mount.tinyMount.syscallReaddir (dotted 130) entries bufLen h.mem
      Mount.rootVolume = (h.mem, .ok (-1, Mount.rootVolume.after u)) :=
    Mount.syscallReaddir_spoiled hwalk Mount.root_facts.2.1 (length_dotted 130)
  refine ⟨length_dotted 130, root_lists 129, by decide,
    ⟨0, 0, h.free (oneChunk.os 1 h.owned) entries, Mount.rootVolume.after u, false⟩, ?_, rfl, rfl, rfl⟩
  rw [readdir, hmalloc, ok_bind]
  simp only
  rw [if_neg (by simpa using hentries), readdirLoop, readdirRaw, hcall]
  rfl

end UHeap

end Kaku
