-- SUMMARY: Whom the scheduler takes: the first process that can run after the last one it took, and nobody is passed over.
import Mathlib.Data.List.Rotate
import Kaku.Lib.Cyclic
import Kaku.Proc.Dispatch
import Kaku.Proc.Waiting

/-!
# Round robin

`procs_head` is an index into an array that processes are appended to and removed
from, and the scheduler goes on from it. That it stays on the process taken last
rests on the order of the array: processes are appended in the order of their pids,
so a child stands behind its parent, and only the parent, which is then the process
taken last, removes it.
-/

namespace Kaku

/-! ## Children are younger than their parents -/

namespace Table

variable {T T' T₁ : Table} {a b c w : UInt32} {l l' : Life} {f : Call} {x : Act}

def Elder (T : Table) : Prop := ∀ a l, T.life a = some l → l.parent < a

namespace Elder

theorem upd (h : T.Elder) (ha : T.life a = some l) (hpar : l'.parent = l.parent) :
    (T.upd a l').Elder := by
  intro b m hm
  rcases eq_or_ne b a with rfl | hne
  · rw [upd_self, Option.some.injEq] at hm
    rw [← hm, hpar]
    exact h b l ha
  · exact h b m (by simpa [hne] using hm)

theorem setCurrent (h : T.Elder) (cur : Option UInt32) :
    ({ T with current := cur } : Table).Elder := h

theorem setWaiting (h : T.Elder) (w : Option UInt32) :
    ({ T with waiting := w } : Table).Elder := h

theorem notify (h : T.Elder) : (T.notify c).Elder := by
  unfold Table.notify
  split
  · exact h
  split
  · exact h
  rename_i p hp
  split
  · exact h.upd hp rfl
  · exact h

theorem die (h : T.Elder) {code : UInt32} : (T.die c code).Elder := by
  unfold Table.die
  split
  · exact h
  · rename_i l hl
    have hdead : (T.upd c { l with state := .zombie, exitCode := code }).Elder := h.upd hl rfl
    exact hdead.notify

theorem reap (h : T.Elder) : (T.reap b).Elder := by
  intro a l hl
  rcases eq_or_ne a b with rfl | hne
  · simp [Table.reap] at hl
  · exact h a l (by simpa [Table.reap, hne] using hl)

theorem spawn (h : T.Elder) (hs : T.Sound) (hrun : ∀ c, T.current = some c → ∃ l, T.life c = some l)
    (hc : T.counter ≠ 0) : T.spawn.Elder := by
  intro a l hl
  rcases eq_or_ne a T.counter with rfl | hne
  · simp only [Table.spawn, upd_life, if_true, Option.some.injEq] at hl
    rw [← hl]
    cases hcur : T.current with
    | none => exact UInt32.pos_iff_ne_zero.2 hc
    | some c => exact ((hs.fresh c (.inl (hrun c hcur))).2).resolve_right hc
  · rw [spawn_life hne] at hl
    exact h a l hl

theorem body (h : T.Elder) (hs : T.Sound) (hcur : T.current = some c) (hc : T.life c = some l)
    (hb : Body T c l f T₁) : T₁.Elder := by
  cases hb with
  | read =>
    have hblocked : (T.upd c { l with state := .blocked }).Elder := h.upd hc rfl
    exact hblocked.setWaiting _
  | exit code => exact h.die
  | exec hcnt =>
    have hne : c ≠ T.counter := fun heq => by simp [heq, hs.counter hcnt] at hc
    have hlive : ∀ b, T.current = some b → ∃ l, T.life b = some l := by
      intro b hb
      rw [hcur, Option.some.injEq] at hb
      exact ⟨l, hb ▸ hc⟩
    have hspawned := h.spawn hs hlive hcnt
    exact hspawned.upd ((spawn_life hne).trans hc) rfl
  | kill hp => exact h.upd hp rfl
  | killMissing _ => exact h
  | @waitReap pid b _ _ _ hne =>
    have hlife : (T.reap pid).life c = some l := by simpa [Table.reap, hne.symm] using hc
    exact h.reap.upd hlife rfl
  | otherSilent => exact h
  | _ => exact h.upd hc rfl

theorem resched (h : T.Elder) (hr : Resched T T') : T'.Elder := by
  cases hr with
  | none => exact h
  | @take a l ha hable => exact (h.upd ha l.started_parent).setCurrent _
  | takeRaw _ _ => exact h

theorem step (h : T.Elder) (hs : T.Sound) (hst : Step T x T') : T'.Elder := by
  cases hst with
  | @call c l eax f T₁ l₁ hc hl hb _ _ =>
    have hpushed : (T.upd c { l with eax := eax }).Elder := h.upd hl rfl
    exact hpushed.body (hs.upd hl) hc (upd_self ..) hb
  | @yield c l eax f T₁ l₁ _ hc hl hb _ _ hr =>
    have hpushed : (T.upd c { l with eax := eax }).Elder := h.upd hl rfl
    exact (hpushed.body (hs.upd hl) hc (upd_self ..) hb).resched hr
  | @fault c l eax _ hc hl hr =>
    have hpushed : (T.upd c { l with eax := eax }).Elder := h.upd hl rfl
    exact hpushed.die.notify.resched hr
  | enterNone _ => exact h
  | @enter w l hw hl =>
    have hwoken : (T.upd w { l with state := .ready }).Elder := h.upd hl rfl
    exact hwoken.setWaiting _
  | key => exact h
  | tickIdle _ hr => exact h.resched hr
  | @tick c l eax _ hc hl hr =>
    have hpushed : (T.upd c { l with eax := eax }).Elder := h.upd hl rfl
    exact hpushed.resched hr
  | tickEmpty _ => exact h

end Elder

end Table

/-! ## The run queue -/

namespace Kernel

variable {k k' k₁ k₂ kp : Kernel} {a b c l : ProcPtr} {p q o : Proc} {e : Event}

/-- The variables the choice depends on, besides the processes' states. -/
structure SameQueue (k k' : Kernel) : Prop where
  procs : k'.procs = k.procs
  head : k'.procsHead = k.procsHead
  current : k'.currentProc = k.currentProc

theorem SameQueue.refl (k : Kernel) : SameQueue k k := ⟨rfl, rfl, rfl⟩

theorem SameQueue.trans (h : SameQueue k k₁) (h' : SameQueue k₁ k₂) : SameQueue k k₂ :=
  ⟨h'.procs.trans h.procs, h'.head.trans h.head, h'.current.trans h.current⟩

theorem setEax_queue {v : UInt32} (h : k.setEax a v = .ok k') : SameQueue k k' := by
  simp only [setEax, bind_eq_ok, pure_eq_ok] at h
  obtain ⟨p, -, rfl⟩ := h
  exact ⟨rfl, rfl, rfl⟩

theorem pushFrame_queue {regs : Registers} (h : k.pushFrame regs = .ok k') : SameQueue k k' := by
  unfold pushFrame at h
  split at h
  · rw [pure_eq_ok] at h
    exact h ▸ .refl k
  · simp only [bind_eq_ok, pure_eq_ok] at h
    obtain ⟨p, -, rfl⟩ := h
    exact ⟨rfl, rfl, rfl⟩

theorem schedulerNotifyParent_queue (h : k.schedulerNotifyParent c = .ok k') :
    SameQueue k k' := by
  rcases schedulerNotifyParent_cases h with rfl | ⟨o, a, p, -, -, -, -, -, rfl⟩
  · exact .refl _
  · exact ⟨rfl, rfl, rfl⟩

/-- What a system call of process `c` does to the queue: nothing, append the new
process, or remove a child of `c`. -/
structure QueueMove (k : Kernel) (c : ProcPtr) (k' : Kernel) : Prop where
  head : k'.procsHead = k.procsHead
  current : k'.currentProc = k.currentProc
  procs : k'.procs = k.procs ∨
    k.pidCounter ≠ 0 ∧ k'.procs = k.procs ++ [k.pidCounter] ∨
    ∃ b p q, k.heap c = some p ∧ k.heap b = some q ∧ q.parentPid = p.procId ∧
      k'.procs = k.procs.erase b

theorem SameQueue.move (h : SameQueue k k') : QueueMove k c k' :=
  ⟨h.head, h.current, .inl h.procs⟩

theorem QueueMove.same (h : QueueMove k c k₁) (h' : SameQueue k₁ k₂) : QueueMove k c k₂ :=
  ⟨h'.head.trans h.head, h'.current.trans h.current, h'.procs ▸ h.procs⟩

theorem elfLoad_queue {image : Option Image} {pid : UInt32}
    (h : k.elfLoad image = .ok (k', pid)) : QueueMove k c k' := by
  cases image with
  | none =>
    simp only [elfLoad, pure_eq_ok, Prod.mk.injEq] at h
    exact h.1 ▸ (SameQueue.refl k).move
  | some img =>
    simp only [elfLoad, procCreate, bind_eq_ok] at h
    obtain ⟨⟨k₁, a⟩, hcreate, p, hp, h⟩ := h
    split at hcreate
    · cases hcreate
    rename_i hcnt
    simp only [bind_eq_ok, pure_eq_ok, Prod.mk.injEq] at hcreate h
    obtain ⟨ppid, -, rfl, rfl⟩ := hcreate
    obtain ⟨rfl, -⟩ := h
    exact ⟨rfl, rfl, .inr (.inl ⟨hcnt, rfl⟩)⟩

theorem syscallWaitpid_queue (h : k.syscallWaitpid c = .ok k') : QueueMove k c k' := by
  simp only [syscallWaitpid, bind_eq_ok, deref_eq_ok] at h
  obtain ⟨p, hp, found, hfound, h⟩ := h
  cases found with
  | none => exact (setEax_queue h).move
  | some b =>
    simp only [bind_eq_ok, deref_eq_ok] at h
    obtain ⟨child, hchild, h⟩ := h
    split at h
    · exact (setEax_queue h).move
    rename_i hmine
    split at h
    · rename_i hz
      simp only [bind_eq_ok, Prod.exists] at h
      obtain ⟨k₁, code, hreap, h⟩ := h
      simp only [schedulerReapChild, hfound, ok_bind, bind_eq_ok, deref_eq_ok, hchild,
        Option.some.injEq, exists_eq_left', hz, ne_eq, not_true_eq_false, if_false, pure_eq_ok,
        Prod.mk.injEq] at hreap
      obtain ⟨rfl, -⟩ := hreap
      have hremoved : QueueMove k c (({ k with procs := k.procs.erase b }).procDestroy b) :=
        ⟨rfl, rfl, .inr (.inr ⟨b, p, child, hp, hchild, not_not.1 hmine, rfl⟩)⟩
      exact hremoved.same (setEax_queue h)
    · simp only [pure_eq_ok] at h
      subst h
      exact ⟨rfl, rfl, .inl rfl⟩

theorem syscallBody_queue {num : UInt32} {env : SyscallEnv}
    (h : k.syscallBody c num env = .ok k') : QueueMove k c k' := by
  unfold syscallBody at h
  split at h
  · simp only [syscallRead, bind_eq_ok, pure_eq_ok] at h
    obtain ⟨p, -, rfl⟩ := h
    exact ⟨rfl, rfl, .inl rfl⟩
  split at h
  · simp only [syscallExit, bind_eq_ok] at h
    obtain ⟨p, -, h⟩ := h
    have hsame := schedulerNotifyParent_queue h
    exact ⟨hsame.head, hsame.current, .inl hsame.procs⟩
  split at h
  · simp only [syscallExec, bind_eq_ok, Prod.exists] at h
    obtain ⟨k₁, pid, hload, h⟩ := h
    exact (elfLoad_queue hload).same (setEax_queue h)
  split at h
  · simp only [syscallKill, bind_eq_ok] at h
    obtain ⟨p, -, found, -, h⟩ := h
    cases found with
    | some b =>
      simp only [bind_eq_ok, pure_eq_ok] at h
      obtain ⟨q, -, rfl⟩ := h
      exact ⟨rfl, rfl, .inl rfl⟩
    | none =>
      simp only [bind_eq_ok, pure_eq_ok] at h
      obtain ⟨u, -, rfl⟩ := h
      exact ⟨rfl, rfl, .inl rfl⟩
  split at h
  · exact syscallWaitpid_queue h
  split at h
  · simp only [syscallGetpid, bind_eq_ok] at h
    obtain ⟨p, -, h⟩ := h
    exact (setEax_queue h).move
  · split at h
    · exact (setEax_queue h).move
    · rw [pure_eq_ok] at h
      exact h ▸ (SameQueue.refl k).move

theorem markFaulted_queue (h : k.markFaulted c = .ok k') : SameQueue k k' := by
  simp only [markFaulted, bind_eq_ok] at h
  obtain ⟨p, -, h⟩ := h
  have hsame := schedulerNotifyParent_queue h
  exact ⟨hsame.procs, hsame.head, hsame.current⟩

theorem schedFlushProcBufs_queue (h : k.schedFlushProcBufs a = .ok k') : SameQueue k k' := by
  simp only [schedFlushProcBufs, bind_eq_ok] at h
  obtain ⟨p, -, h⟩ := h
  split at h
  · simp only [bind_eq_ok, pure_eq_ok] at h
    obtain ⟨u, -, v, -, rfl⟩ := h
    exact ⟨rfl, rfl, rfl⟩
  · rw [pure_eq_ok] at h
    exact h ▸ .refl k

/-! ## Where the scheduler chooses -/

/-- The state `__scheduler_core` calls `pick_next_ready_proc` in, if it gets there. -/
def corePick (k : Kernel) : K (Option Kernel) :=
  if k.procs.length = 0 then pure none
  else do
    let k ← k.dropZombieCurrent
    pure (some k)

/-- The same for `scheduler_on_segfault`. -/
def segfaultPick (k : Kernel) : K (Option Kernel) :=
  if k.procs.length = 0 then pure none
  else do
    let k ← match k.currentProc with
      | none => .error .wild
      | some c => k.schedulerNotifyParent c
    pure (some { k with currentProc := none, procsHead := k.procsHead % k.procs.length })

/-- The state a step of the kernel calls `pick_next_ready_proc` in, if it does. -/
def pickIn (k : Kernel) : Event → K (Option Kernel)
  | .syscall regs env =>
    match k.currentProc with
    | none => pure none
    | some c => do
      let k ← k.pushFrame regs
      let k ← k.syscallBody c regs.eax env
      let p ← k.deref c
      if p.procState = .blocked ∨ p.procState = .zombie then k.corePick else pure none
  | .pageFault regs =>
    match k.currentProc with
    | none => pure none
    | some c => do
      let k ← k.pushFrame regs
      let k ← k.markFaulted c
      k.segfaultPick
  | .key _ => pure none
  | .timer regs => do
    let k ← k.pushFrame regs
    k.corePick

/-- The step ends with the choice made in `kp`: the process chosen is the current
one, and the queue is as the choice left it. -/
def Chooses (kp k' : Kernel) : Prop :=
  ∃ k₁ next, kp.pickNextReadyProc = .ok (k₁, next) ∧ k'.procs = k₁.procs ∧
    k'.procsHead = k₁.procsHead ∧ k'.currentProc = next

theorem schedulerCore_pick {r : Resume} (h : k.schedulerCore = .ok (k', r)) :
    k.corePick = .ok none ∧ k' = k ∨ ∃ kp, k.corePick = .ok (some kp) ∧ Chooses kp k' := by
  unfold schedulerCore at h
  split at h
  · rename_i hnil
    simp only [pure_eq_ok, Prod.mk.injEq] at h
    left
    rw [corePick, if_pos hnil]
    exact ⟨rfl, h.1.symm⟩
  rename_i hne
  simp only [bind_eq_ok] at h
  obtain ⟨kp, hdrop, ⟨k₁, next⟩, hpick, h⟩ := h
  refine .inr ⟨kp, ?_, k₁, next, hpick, ?_⟩
  · rw [corePick, if_neg hne, hdrop]
    rfl
  cases next with
  | none =>
    simp only [pure_eq_ok, Prod.mk.injEq] at h
    obtain ⟨rfl, -⟩ := h
    exact ⟨rfl, rfl, rfl⟩
  | some a =>
    simp only [bind_eq_ok] at h
    obtain ⟨k₂, hflush, p, -, h⟩ := h
    have hsame := schedFlushProcBufs_queue hflush
    split at h
    · simp only [bind_eq_ok, pure_eq_ok, Prod.mk.injEq] at h
      obtain ⟨o, -, rfl, -⟩ := h
      exact ⟨hsame.procs, hsame.head, hsame.current⟩
    · simp only [pure_eq_ok, Prod.mk.injEq] at h
      obtain ⟨rfl, -⟩ := h
      exact ⟨hsame.procs, hsame.head, hsame.current⟩

theorem schedulerOnSegfault_pick {r : Resume} (h : k.schedulerOnSegfault = .ok (k', r)) :
    k.segfaultPick = .ok none ∧ k' = k ∨ ∃ kp, k.segfaultPick = .ok (some kp) ∧ Chooses kp k' := by
  unfold schedulerOnSegfault at h
  split at h
  · rename_i hnil
    simp only [pure_eq_ok, Prod.mk.injEq] at h
    left
    rw [segfaultPick, if_pos hnil]
    exact ⟨rfl, h.1.symm⟩
  rename_i hne
  cases hc : k.currentProc with
  | none =>
    rw [hc] at h
    cases h
  | some c =>
    rw [hc] at h
    simp only [bind_eq_ok] at h
    obtain ⟨k₁, hnotify, h⟩ := h
    split at h
    · cases h
    simp only [bind_eq_ok] at h
    obtain ⟨⟨k₂, next⟩, hpick, h⟩ := h
    refine .inr ⟨_, ?_, k₂, next, hpick, ?_⟩
    · rw [segfaultPick, if_neg hne, hc]
      simp only [hnotify, ok_bind]
      rfl
    cases next <;> simp only [pure_eq_ok, Prod.mk.injEq] at h <;> obtain ⟨rfl, -⟩ := h <;>
      exact ⟨rfl, rfl, rfl⟩

/-! ## The choice -/

/-- Neither BLOCKED nor ZOMBIE. -/
def canRun (k : Kernel) (a : ProcPtr) : Bool := (k.heap a).any fun p => !p.skipped

/-- The loop goes round the array, from behind the head. -/
theorem pickLoop_spec {left head head' : Nat} {next : Option ProcPtr}
    (hleft : left ≤ k.procs.length) (h : k.pickLoop left head = .ok (head', next)) :
    next = ((k.procs.rotate (head + 1)).take left).find? k.canRun ∧
      (∀ a, next = some a → k.procs[head']? = some a) ∧
      (next = none → head' % k.procs.length = (head + left) % k.procs.length) ∧
      (head < k.procs.length → head' < k.procs.length) := by
  induction left generalizing head with
  | zero =>
    simp only [pickLoop, Except.ok.injEq, Prod.mk.injEq] at h
    obtain ⟨rfl, rfl⟩ := h
    refine ⟨rfl, ?_, fun _ => rfl, id⟩
    intro a ha
    cases ha
  | succ left ih =>
    simp only [pickLoop] at h
    split at h
    · cases h
    rename_i a ha
    simp only [bind_eq_ok, deref_eq_ok] at h
    obtain ⟨p, hp, h⟩ := h
    have hpos : (head + 1) % k.procs.length < k.procs.length := Nat.mod_lt _ (by omega)
    -- The rotated array starts with the process the loop looks at.
    obtain ⟨rest, hrest⟩ : ∃ rest, k.procs.rotate (head + 1) = a :: rest := by
      have hhead := List.head?_rotate hpos
      rw [List.rotate_mod, ha] at hhead
      exact List.head?_eq_some_iff.1 hhead
    have hnextround : k.procs.rotate ((head + 1) % k.procs.length + 1) = rest ++ [a] := by
      rw [← List.rotate_rotate, List.rotate_mod, hrest, List.rotate_cons_succ, List.rotate_zero]
    have hlen : rest.length + 1 = k.procs.length := by
      rw [← List.length_rotate k.procs (head + 1), hrest, List.length_cons]
    have hrun : k.canRun a = !p.skipped := by rw [canRun, hp, Option.any_some]
    rw [hrest, List.take_succ_cons, List.find?_cons, hrun]
    cases hskip : p.skipped with
    | true =>
      rw [hskip, if_pos rfl] at h
      obtain ⟨hfind, hat, hnone, hlt⟩ := ih (by omega) h
      rw [hnextround, List.take_append_of_le_length (by omega)] at hfind
      refine ⟨hfind, hat, fun hn => ?_, fun _ => hlt hpos⟩
      rw [hnone hn, Nat.mod_add_mod]
      congr 1
      omega
    | false =>
      rw [hskip] at h
      simp only [Bool.false_eq_true, if_false, pure_eq_ok, Prod.mk.injEq] at h
      obtain ⟨rfl, rfl⟩ := h
      refine ⟨rfl, fun b hb => ?_, fun hn => ?_, fun _ => hpos⟩
      · rw [ha]
        exact hb
      · cases hn

/-- The array is in the order of the pids, and the head is on process `l`. -/
structure AtHead (k : Kernel) (l : ProcPtr) : Prop where
  sorted : k.procs.Pairwise fun a b => a.toNat < b.toNat
  head : k.procs[k.procsHead]? = some l

theorem AtHead.lt (h : k.AtHead l) : k.procsHead < k.procs.length :=
  (List.getElem?_eq_some_iff.1 h.head).1

theorem AtHead.same (h : k.AtHead l) (hp : k'.procs = k.procs)
    (hh : k'.procsHead = k.procsHead) : k'.AtHead l := by
  refine ⟨?_, ?_⟩
  · rw [hp]
    exact h.sorted
  · rw [hp, hh]
    exact h.head

/-- The array around the head. -/
theorem AtHead.split (h : k.AtHead l) :
    k.procs = k.procs.take k.procsHead ++ l :: k.procs.drop (k.procsHead + 1) ∧
      k.procs.rotate (k.procsHead + 1) =
        k.procs.drop (k.procsHead + 1) ++ k.procs.take k.procsHead ++ [l] := by
  have htake : k.procs.take (k.procsHead + 1) = k.procs.take k.procsHead ++ [l] := by
    rw [List.take_add_one, h.head]
    rfl
  constructor
  · conv_lhs => rw [← List.take_append_drop (k.procsHead + 1) k.procs, htake]
    simp
  · rw [List.rotate_eq_drop_append_take h.lt, htake, List.append_assoc]

/-- The turn that is due in a state. -/
def turn (kp : Kernel) (next : Option ProcPtr) : Turn ProcPtr :=
  { queue := kp.procs, ready := kp.canRun, next := next }

/-- The choice follows the process at the head, and moves the head to the process
chosen. -/
theorem AtHead.pick {next : Option ProcPtr} (h : kp.AtHead l)
    (hpick : kp.pickNextReadyProc = .ok (k₁, next)) :
    (kp.turn next).Follows (some l) ∧ k₁.AtHead (next.getD l) := by
  simp only [pickNextReadyProc, bind_eq_ok, pure_eq_ok, Prod.exists, Prod.mk.injEq] at hpick
  obtain ⟨head, next, hloop, rfl, rfl⟩ := hpick
  obtain ⟨hqueue, hround⟩ := h.split
  obtain ⟨hfind, hat, hnone, hlt⟩ := pickLoop_spec le_rfl hloop
  rw [← List.length_rotate kp.procs (kp.procsHead + 1), List.take_length, hround] at hfind
  refine ⟨⟨_, _, hqueue, hfind⟩, h.sorted, ?_⟩
  cases hn : next with
  | some a => exact hat a hn
  | none =>
    -- All the way round, and back at the process taken last.
    have hback := hnone hn
    rw [Nat.add_mod_right, Nat.mod_eq_of_lt h.lt] at hback
    rw [Nat.mod_eq_of_lt (hlt h.lt)] at hback
    simp only [hback]
    exact h.head

/-! ## One step -/

/-- A system call of the process at the head leaves it there: whatever is appended
comes last, and a child that is removed stands behind its parent. -/
theorem AtHead.move (h : k.AtHead c) (hk : k.Shape) (hs : k.table.Sound) (he : k.table.Elder)
    (hmove : QueueMove k c k') : k'.AtHead c := by
  rcases hmove.procs with hp | ⟨hcnt, hp⟩ | ⟨b, p, q, hc, hb, hpar, hp⟩
  · exact h.same hp hmove.head
  · refine ⟨?_, ?_⟩
    · rw [hp, List.pairwise_append]
      refine ⟨h.sorted, List.pairwise_singleton .., fun a ha x hx => ?_⟩
      obtain rfl := List.mem_singleton.1 hx
      obtain ⟨o, ho⟩ := (hk.mem_procs a).1 ha
      exact ((hs.fresh a (.inl ⟨o.life, table_life ho⟩)).2).resolve_right hcnt
    · rw [hp, hmove.head, List.getElem?_append_left h.lt]
      exact h.head
  · have hlt : c.toNat < b.toNat := by
      have helder := he b q.life (table_life hb)
      rw [show q.life.parent = q.parentPid from rfl, hpar, hk.pid c p hc] at helder
      exact helder
    refine ⟨?_, ?_⟩
    · rw [hp]
      exact h.sorted.sublist List.erase_sublist
    · obtain ⟨hqueue, -⟩ := h.split
      have hsorted := h.sorted
      rw [hqueue] at hsorted
      obtain ⟨-, -, hcross⟩ := List.pairwise_append.1 hsorted
      have hnot : b ∉ k.procs.take k.procsHead := by
        intro hmem
        have := hcross b hmem c (List.mem_cons_self ..)
        omega
      have hne : ¬ (c == b) = true := by
        rw [beq_iff_eq]
        rintro rfl
        exact lt_irrefl _ hlt
      have hlen : (k.procs.take k.procsHead).length = k.procsHead := by
        rw [List.length_take, Nat.min_eq_left h.lt.le]
      rw [hp, hmove.head, hqueue, List.erase_append_right _ hnot, List.erase_cons_tail hne]
      rw [List.getElem?_append_right hlen.le, hlen, Nat.sub_self, List.getElem?_cons_zero]

theorem AtHead.corePick (h : k.AtHead l) (hpick : k.corePick = .ok (some kp)) :
    kp.procs = k.procs ∧ kp.procsHead = k.procsHead := by
  unfold Kernel.corePick at hpick
  split at hpick
  · cases hpick
  simp only [bind_eq_ok, pure_eq_ok, Option.some.injEq] at hpick
  obtain ⟨k₁, hdrop, rfl⟩ := hpick
  unfold dropZombieCurrent at hdrop
  split at hdrop
  · rw [pure_eq_ok] at hdrop
    exact hdrop ▸ ⟨rfl, rfl⟩
  · simp only [bind_eq_ok] at hdrop
    obtain ⟨p, -, hdrop⟩ := hdrop
    split at hdrop
    · rw [pure_eq_ok] at hdrop
      subst hdrop
      exact ⟨rfl, Nat.mod_eq_of_lt h.lt⟩
    · rw [pure_eq_ok] at hdrop
      exact hdrop ▸ ⟨rfl, rfl⟩

theorem AtHead.segfaultPick (h : k.AtHead l) (hpick : k.segfaultPick = .ok (some kp)) :
    kp.procs = k.procs ∧ kp.procsHead = k.procsHead := by
  unfold Kernel.segfaultPick at hpick
  split at hpick
  · cases hpick
  cases hc : k.currentProc with
  | none =>
    rw [hc] at hpick
    cases hpick
  | some c =>
    rw [hc] at hpick
    simp only [bind_eq_ok, pure_eq_ok, Option.some.injEq] at hpick
    obtain ⟨k₁, hnotify, rfl⟩ := hpick
    have hsame := schedulerNotifyParent_queue hnotify
    refine ⟨hsame.procs, ?_⟩
    simp only [hsame.procs, hsame.head]
    exact Nat.mod_eq_of_lt h.lt

theorem kbHandleInterrupt_queue {scancode : UInt8} (h : k.kbHandleInterrupt scancode = .ok k') :
    SameQueue k k' := by
  unfold kbHandleInterrupt at h
  split at h
  · rw [pure_eq_ok] at h
    exact h ▸ .refl k
  split at h
  · rw [pure_eq_ok] at h
    subst h
    unfold stdinPop
    split <;> exact ⟨rfl, rfl, rfl⟩
  split at h
  · unfold stdinFlush at h
    split at h
    · rw [pure_eq_ok] at h
      exact h ▸ .refl k
    · simp only [schedulerWakeStdin, bind_eq_ok, pure_eq_ok] at h
      obtain ⟨k₁, ⟨p, -, rfl⟩, rfl⟩ := h
      exact ⟨rfl, rfl, rfl⟩
  split at h
  · rw [pure_eq_ok] at h
    exact h ▸ .refl k
  dsimp only at h
  split at h
  · rw [pure_eq_ok] at h
    subst h
    unfold stdinPut
    split <;> exact ⟨rfl, rfl, rfl⟩
  · rw [pure_eq_ok] at h
    exact h ▸ .refl k

/-- With the head on the process taken last, a step either chooses nobody and leaves
it there, or chooses with the head still there. -/
theorem AtHead.step (h : k.AtHead l) (hk : k.Wf) (he : k.table.Elder)
    (hcur : ∀ c, k.currentProc = some c → c = l) (hstep : k.step e = .ok k') :
    (k.pickIn e = .ok none ∧ k'.AtHead l ∧ k'.currentProc = k.currentProc ∧
        (k.currentProc = none → k'.procs = k.procs)) ∨
      ∃ kp, k.pickIn e = .ok (some kp) ∧ kp.AtHead l ∧ Chooses kp k' ∧
        (k.currentProc = none → kp.procs = k.procs) := by
  cases e with
  | key scancode =>
    have hsame := kbHandleInterrupt_queue hstep
    exact .inl ⟨rfl, h.same hsame.procs hsame.head, hsame.current, fun _ => hsame.procs⟩
  | timer regs =>
    simp only [Kernel.step, bind_eq_ok, pure_eq_ok, Prod.exists] at hstep
    obtain ⟨k₁, hpush, k₂, r, hcore, rfl⟩ := hstep
    have hsame := pushFrame_queue hpush
    have h₁ := h.same hsame.procs hsame.head
    rcases schedulerCore_pick hcore with ⟨hnone, rfl⟩ | ⟨kp, hpick, hchoose⟩
    · left
      refine ⟨?_, h₁, hsame.current, fun _ => hsame.procs⟩
      simp only [pickIn, hpush, ok_bind, hnone]
    · right
      obtain ⟨hp, hh⟩ := h₁.corePick hpick
      refine ⟨kp, ?_, h₁.same hp hh, hchoose, fun _ => hp.trans hsame.procs⟩
      simp only [pickIn, hpush, ok_bind, hpick]
  | pageFault regs =>
    simp only [Kernel.step, bind_eq_ok, pure_eq_ok, Prod.exists] at hstep
    obtain ⟨k₃, r, hrun, rfl⟩ := hstep
    unfold pageFaultHandler at hrun
    split at hrun
    · cases hrun
    rename_i c hc
    simp only [bind_eq_ok] at hrun
    obtain ⟨k₁, hpush, k₂, hmark, hrun⟩ := hrun
    have hsame := (pushFrame_queue hpush).trans (markFaulted_queue hmark)
    have h₂ := h.same hsame.procs hsame.head
    rcases schedulerOnSegfault_pick hrun with ⟨hnone, rfl⟩ | ⟨kp, hpick, hchoose⟩
    · left
      refine ⟨?_, h₂, hsame.current, fun _ => hsame.procs⟩
      simp only [pickIn, hc, hpush, hmark, ok_bind, hnone]
    · right
      obtain ⟨hp, hh⟩ := h₂.segfaultPick hpick
      refine ⟨kp, ?_, h₂.same hp hh, hchoose, fun _ => hp.trans hsame.procs⟩
      simp only [pickIn, hc, hpush, hmark, ok_bind, hpick]
  | syscall regs env =>
    simp only [Kernel.step, bind_eq_ok, pure_eq_ok, Prod.exists] at hstep
    obtain ⟨k₃, r, hrun, rfl⟩ := hstep
    unfold syscallHandler at hrun
    split at hrun
    · cases hrun
    rename_i c hc
    have hidle : k.currentProc = none → ∀ P : Prop, P := by
      intro hno
      rw [hc] at hno
      cases hno
    obtain rfl := hcur c hc
    simp only [bind_eq_ok, deref_eq_ok] at hrun
    obtain ⟨k₁, hpush, k₂, hbody, q, hq, hrun⟩ := hrun
    obtain ⟨p, hp, -⟩ := hk.current hc
    obtain ⟨rfl, hshape₁, htab₁⟩ := pushFrame_refines hk.shape hc hp hpush
    have hsame := pushFrame_queue hpush
    have helder₁ : (k.set c { p with frame := regs }).table.Elder := by
      rw [htab₁]
      exact he.upd (table_life hp) rfl
    have hsound₁ : (k.set c { p with frame := regs }).table.Sound := by
      rw [htab₁]
      exact hk.sound.upd (table_life hp)
    have hmove := syscallBody_queue hbody
    have h₂ := (h.same hsame.procs hsame.head).move hshape₁ hsound₁ helder₁ hmove
    have hderef : k₂.deref c = .ok q := deref_eq_ok.2 hq
    split at hrun
    · rename_i hstop
      rcases schedulerCore_pick hrun with ⟨hnone, rfl⟩ | ⟨kp, hpick, hchoose⟩
      · left
        refine ⟨?_, h₂, hmove.current.trans hsame.current, fun hno => hidle hno _⟩
        simp only [pickIn, hc, hpush, hbody, ok_bind, hderef, if_pos hstop, hnone]
      · right
        obtain ⟨hprocs, hhead⟩ := h₂.corePick hpick
        refine ⟨kp, ?_, h₂.same hprocs hhead, hchoose, fun hno => hidle hno _⟩
        simp only [pickIn, hc, hpush, hbody, ok_bind, hderef, if_pos hstop, hpick]
    · rename_i hgo
      simp only [pure_eq_ok, Prod.mk.injEq] at hrun
      obtain ⟨rfl, -⟩ := hrun
      left
      refine ⟨?_, h₂, hmove.current.trans hsame.current, fun hno => hidle hno _⟩
      simp only [pickIn, hc, hpush, hbody, ok_bind, hderef, if_neg hgo]
      rfl

end Kernel

/-! ## Runs -/

/-- The kernel, with the choices the scheduler has made. -/
structure Served where
  kernel : Kernel
  turns : List (Turn ProcPtr)

namespace Served

variable {genkan : Image} {k₀ k k' : Kernel} {o : Served} {es : List Event} {e : Event}
variable {C : Kernel → Event → Prop} {l : ProcPtr}

def start (k : Kernel) : Served := ⟨k, []⟩

def step (o : Served) (e : Event) : K Served := do
  let k ← o.kernel.step e
  match ← o.kernel.pickIn e with
  | none => pure { o with kernel := k }
  | some kp => do
    let (_, next) ← kp.pickNextReadyProc
    pure { kernel := k, turns := o.turns ++ [kp.turn next] }

/-- The head is on the process taken last. Before the first choice, the only process
is in its place. -/
structure Orderly (o : Served) : Prop where
  wf : o.kernel.Wf
  elder : o.kernel.table.Elder
  inTurn : InTurn o.turns
  sorted : ∀ t ∈ o.turns, t.queue.Pairwise fun a b => a.toNat < b.toNat
  current : ∀ c, o.kernel.currentProc = some c → lastTaken o.turns = some c
  head : ∃ l, o.kernel.AtHead l ∧ (lastTaken o.turns = some l ∨
    lastTaken o.turns = none ∧ o.kernel.procs = [l] ∧ o.kernel.currentProc = none)

theorem Orderly.start (h : Kernel.boot genkan = .ok k₀) : (start k₀).Orderly := by
  obtain ⟨hwf, htab⟩ := Kernel.boot_wf h
  have hk : k₀.procs = [1] ∧ k₀.procsHead = 0 ∧ k₀.currentProc = none := by
    obtain ⟨k, hboot⟩ : ∃ k, Kernel.boot genkan = .ok k := ⟨_, rfl⟩
    rw [h, Except.ok.injEq] at hboot
    rw [← Except.ok.inj h]
    exact ⟨rfl, rfl, rfl⟩
  obtain ⟨hprocs, hhead, hcur⟩ := hk
  have helder : Kernel.init.table.Elder := by
    intro a l hl
    simp [Kernel.table, Kernel.init] at hl
  have hsound : Kernel.init.table.Sound := ⟨by simp [Kernel.table, Kernel.init],
    by simp [Kernel.table, Kernel.init], by simp [Kernel.table, Kernel.init]⟩
  refine ⟨hwf, ?_, .nil, ?_, ?_, 1, ⟨?_, ?_⟩, .inr ⟨rfl, hprocs, hcur⟩⟩
  · rw [show (Served.start k₀).kernel = k₀ from rfl, htab]
    exact helder.spawn hsound (fun c hc => by simp [Kernel.table, Kernel.init] at hc) (by decide)
  · intro t ht
    cases ht
  · intro c hc
    rw [show (Served.start k₀).kernel = k₀ from rfl, hcur] at hc
    cases hc
  · rw [show (Served.start k₀).kernel = k₀ from rfl, hprocs]
    exact List.pairwise_singleton ..
  · rw [show (Served.start k₀).kernel = k₀ from rfl, hprocs, hhead]
    rfl

/-- Every step of the kernel can be followed, and keeps the order. -/
theorem Orderly.step (h : o.Orderly) (hstep : o.kernel.step e = .ok k') :
    ∃ turns, o.step e = .ok ⟨k', turns⟩ ∧ Orderly ⟨k', turns⟩ := by
  obtain ⟨l, hat, hlast⟩ := h.head
  obtain ⟨htstep, hwf⟩ := Kernel.step_refines h.wf hstep
  have helder := h.elder.step h.wf.sound htstep
  have hcur : ∀ c, o.kernel.currentProc = some c → c = l := by
    intro c hc
    rcases hlast with hl | ⟨-, -, hno⟩
    · exact Option.some.inj ((h.current c hc).symm.trans hl)
    · rw [hno] at hc
      cases hc
  rcases hat.step h.wf h.elder hcur hstep with ⟨hnone, hat', hcur', hprocs⟩ |
    ⟨kp, hpick, hatp, ⟨k₁, next, hnext, hp, hh, hc⟩, hprocs⟩
  · refine ⟨o.turns, ?_, hwf, helder, h.inTurn, h.sorted, ?_, l, hat', ?_⟩
    · rw [Served.step, hstep, ok_bind, hnone]
      rfl
    · intro c hc
      exact h.current c (hcur' ▸ hc)
    · refine hlast.imp_right fun ⟨hl, hq, hno⟩ => ⟨hl, ?_, ?_⟩
      · rw [hprocs hno]
        exact hq
      · rw [hcur']
        exact hno
  · obtain ⟨hfollows, hat'⟩ := hatp.pick hnext
    have hturn : (kp.turn next).Follows (lastTaken o.turns) := by
      rcases hlast with hl | ⟨hl, hq, hno⟩
      · rw [hl]
        exact hfollows
      · rw [hl]
        -- Only one process: going round from it is going through the array.
        obtain ⟨before, after, hqueue, hfind⟩ := hfollows
        have hsingle : before ++ l :: after = [l] := by
          rw [← hqueue, ← hq, ← hprocs hno]
          rfl
        obtain ⟨rfl, rfl⟩ : before = [] ∧ after = [] := by
          have := congrArg List.length hsingle
          simp only [List.length_append, List.length_cons, List.length_nil] at this
          exact ⟨List.eq_nil_of_length_eq_zero (by omega),
            List.eq_nil_of_length_eq_zero (by omega)⟩
        rw [Turn.Follows, hqueue]
        exact hfind
    have htaken : lastTaken (o.turns ++ [kp.turn next]) = next.or (lastTaken o.turns) :=
      lastTaken_snoc
    have hprocs₁ : k₁.procs = kp.procs := by
      obtain ⟨⟨head, rfl⟩, -⟩ := Kernel.pickNextReadyProc_spec hnext
      rfl
    refine ⟨o.turns ++ [kp.turn next], ?_, hwf, helder, h.inTurn.snoc hturn, ?_, ?_,
      next.getD l, hat'.same hp hh, ?_⟩
    · rw [Served.step, hstep, ok_bind, hpick, ok_bind]
      simp only [hnext, ok_bind]
      rfl
    · intro t ht
      rcases List.mem_append.1 ht with ht | ht
      · exact h.sorted t ht
      · rw [List.mem_singleton.1 ht]
        exact hatp.sorted
    · intro c hc'
      rw [htaken, ← hc, hc']
      rfl
    · cases next with
      | some a => exact .inl htaken
      | none =>
        refine hlast.imp (fun hl => htaken.trans hl) fun ⟨hl, hq, hno⟩ =>
          ⟨htaken.trans hl, ?_, hc⟩
        rw [hp, hprocs₁, hprocs hno]
        exact hq

/-- In every run of the kernel, whatever the events: the scheduler takes nobody
exactly when every process is BLOCKED or ZOMBIE, otherwise the first process in
another state in cyclic order after the one taken last, and passes nobody over. -/
theorem served_in_turn (hboot : Kernel.boot genkan = .ok k₀)
    (hrun : Run (Guarded C Kernel.step) k₀ es k) :
    ∃ turns, Run (Guarded (fun _ _ => True) step) (start k₀) es ⟨k, turns⟩ ∧
      (∀ t ∈ turns, t.next = none ↔ ∀ a ∈ t.queue, t.ready a = false) ∧
      InTurn turns ∧ Fair turns := by
  obtain ⟨turns, hserved, hord⟩ : ∃ turns,
      Run (Guarded (fun _ _ => True) step) (start k₀) es ⟨k, turns⟩ ∧
        Orderly ⟨k, turns⟩ := by
    induction hrun with
    | refl => exact ⟨[], .refl _, .start hboot⟩
    | snoc _ hstep ih =>
      obtain ⟨turns, hserved, hord⟩ := ih
      obtain ⟨turns', hstep', hord'⟩ := hord.step hstep.2
      exact ⟨turns', .snoc hserved ⟨trivial, hstep'⟩, hord'⟩
  refine ⟨turns, hserved, fun t ht => ?_, hord.inTurn,
    hord.inTurn.fair (fun a b => UInt32.toNat_inj.1) hord.sorted⟩
  obtain ⟨earlier, later, hsplit⟩ := List.append_of_mem ht
  exact (hord.inTurn earlier t later hsplit).none_iff

open Kernel (bareImage tick trap trapExec)

theorem served_in_turn_two :
    ∃ k₀ k turns, Kernel.boot bareImage = .ok k₀ ∧
      Run (Guarded (fun _ _ => True) step) (start k₀) [tick, trapExec, tick, tick] ⟨k, turns⟩ ∧
      InTurn turns ∧ Fair turns := by
  obtain ⟨k₀, k, hboot, hrun, -⟩ := Kernel.exists_run_of_boot (fun _ _ => True) bareImage
    [tick, trapExec, tick, tick] (fun _ => true) (by decide)
  obtain ⟨turns, hserved, -, hturn, hfair⟩ := served_in_turn hboot hrun
  exact ⟨k₀, k, turns, hboot, hserved, hturn, hfair⟩

end Served

end Kaku
