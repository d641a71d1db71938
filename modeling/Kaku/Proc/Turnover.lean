-- SUMMARY: Which processes there are after a step of the kernel: those there were, less the one reaped, and the one created.
import Mathlib.Data.List.Perm.Basic
import Mathlib.Data.List.Nodup
import Kaku.Proc.Waiting

/-!
# Turnover

`SYS_EXEC` is the only event that creates a process and `SYS_WAITPID` on a dead
child the only one that destroys one. What is kept beside the process objects (the
descriptor tables, for one) has to follow exactly these two.
-/

namespace Kaku

namespace Table

variable {T T' T₁ : Table} {x : Act} {f : Call} {a b c : UInt32} {l l' : Life}

def Lives (T : Table) (a : UInt32) : Prop := T.life a ≠ none

/-- The act is a `SYS_WAITPID` on a dead child of its caller. -/
def Reaps (T : Table) (x : Act) (b : UInt32) : Prop :=
  ∃ eax c l, x = .call eax (.waitpid b) ∧ T.current = some c ∧ T.life b = some l ∧
    l.parent = c ∧ l.state = .zombie

/-- The act is a `SYS_EXEC` of a program that is there. -/
def Births (T : Table) (x : Act) (a : UInt32) : Prop :=
  (∃ eax, x = .call eax (.exec true)) ∧ a = T.counter

theorem lives_of_life (h : T.life a = some l) : T.Lives a := by
  simp [Lives, h]

theorem upd_lives (h : T.Lives a) : (T.upd a l).Lives b ↔ T.Lives b := by
  simp only [Lives, upd_life]
  split
  · rename_i hb
    subst hb
    exact iff_of_true (Option.some_ne_none l) h
  · rfl

theorem notify_lives : (T.notify c).Lives a ↔ T.Lives a := by
  unfold notify
  split
  · rfl
  · split
    · rfl
    · rename_i p hp
      split
      · exact upd_lives (lives_of_life hp)
      · rfl

theorem die_lives {code : UInt32} : (T.die c code).Lives a ↔ T.Lives a := by
  unfold die
  split
  · rfl
  · rename_i l hl
    rw [notify_lives]
    exact upd_lives (lives_of_life hl)

theorem Resched.lives (hr : Resched T T') : T'.Lives a ↔ T.Lives a := by
  cases hr with
  | none => rfl
  | takeRaw => rfl
  | take hl => exact upd_lives (lives_of_life hl)

theorem reap_lives : (T.reap b).Lives a ↔ T.Lives a ∧ a ≠ b := by
  simp only [Lives, reap]
  split <;> simp_all

theorem spawn_lives : T.spawn.Lives a ↔ T.Lives a ∨ a = T.counter := by
  by_cases ha : a = T.counter <;> simp [Lives, spawn, ha]

theorem reaps_waitpid {eax pid : UInt32} (hcur : T.current = some c) :
    T.Reaps (.call eax (.waitpid pid)) a ↔
      a = pid ∧ ∃ l, T.life pid = some l ∧ l.parent = c ∧ l.state = .zombie := by
  constructor
  · rintro ⟨_, c', l, hcall, hc', hl, hmine, hz⟩
    obtain rfl : c = c' := by simpa [hcur] using hc'
    cases hcall
    exact ⟨rfl, l, hl, hmine, hz⟩
  · rintro ⟨rfl, l, hl, hmine, hz⟩
    exact ⟨eax, c, l, rfl, hcur, hl, hmine, hz⟩

theorem not_births_waitpid {eax pid : UInt32} : ¬ T.Births (.call eax (.waitpid pid)) a := by
  rintro ⟨⟨_, hcall⟩, -⟩
  cases hcall

/-- The body of a call, by the process in user mode. -/
theorem Body.lives (eax : UInt32) (hb : Body T c l f T₁) (hcur : T.current = some c)
    (hc : T.life c = some l) : T₁.Lives a ↔
      T.Lives a ∧ ¬ T.Reaps (.call eax f) a ∨ T.Births (.call eax f) a := by
  have hlives : T.Lives c := lives_of_life hc
  cases hb with
  | read => exact (upd_lives hlives).trans (by simp [Reaps, Births])
  | exit code => exact die_lives.trans (by simp [Reaps, Births])
  | execMissing => exact (upd_lives hlives).trans (by simp [Reaps, Births])
  | exec =>
    rw [upd_lives (spawn_lives.2 (.inl hlives)), spawn_lives]
    simp [Reaps, Births]
  | kill hb => exact (upd_lives (lives_of_life hb)).trans (by simp [Reaps, Births])
  | killMissing => simp [Reaps, Births]
  | waitMissing hb =>
    refine (upd_lives hlives).trans ?_
    simp [reaps_waitpid hcur, not_births_waitpid, hb]
  | waitOther hb hother =>
    refine (upd_lives hlives).trans ?_
    simp [reaps_waitpid hcur, not_births_waitpid, hb, hother]
  | waitReap hb hmine hz hne =>
    rw [upd_lives (reap_lives.2 ⟨hlives, hne.symm⟩), reap_lives]
    simp [reaps_waitpid hcur, not_births_waitpid, hb, hmine, hz]
  | waitBlock hb hmine hz =>
    refine (upd_lives hlives).trans ?_
    simp [reaps_waitpid hcur, not_births_waitpid, hb, hz]
  | other v => exact (upd_lives hlives).trans (by simp [Reaps, Births])
  | otherSilent => simp [Reaps, Births]
  | getpid => exact (upd_lives hlives).trans (by simp [Reaps, Births])

/-- A call pushes its frame first; that changes neither. -/
theorem pushed_reaps (hc : T.life c = some l) (hparent : l'.parent = l.parent)
    (hstate : l'.state = l.state) : (T.upd c l').Reaps x b ↔ T.Reaps x b := by
  unfold Reaps
  by_cases hb : b = c
  · subst hb
    simp [hc, hparent, hstate]
  · simp [hb]

/-- Who lives after a step: who lived before and was not reaped, and who was created. -/
theorem Step.lives (hs : Step T x T') :
    T'.Lives a ↔ T.Lives a ∧ ¬ T.Reaps x a ∨ T.Births x a := by
  have hpushed : ∀ {c l eax f T₁}, T.current = some c → T.life c = some l →
      Body (T.upd c { l with eax := eax }) c { l with eax := eax } f T₁ →
      (T₁.Lives a ↔ T.Lives a ∧ ¬ T.Reaps (.call eax f) a ∨ T.Births (.call eax f) a) := by
    intro c l eax f T₁ hcur hc hb
    have hsame : (T.upd c { l with eax := eax }).Reaps (.call eax f) a ↔
        T.Reaps (.call eax f) a := pushed_reaps hc rfl rfl
    rw [hb.lives eax hcur (upd_self ..), upd_lives (lives_of_life hc), hsame]
    rfl
  cases hs with
  | call hcur hc hb _ _ => exact hpushed hcur hc hb
  | yield hcur hc hb _ _ hr => exact hr.lives.trans (hpushed hcur hc hb)
  | fault _ hc hr =>
    rw [hr.lives, notify_lives, die_lives, upd_lives (lives_of_life hc)]
    simp [Reaps, Births]
  | enterNone => simp [Reaps, Births]
  | enter _ hl => exact (upd_lives (lives_of_life hl)).trans (by simp [Reaps, Births])
  | key => simp [Reaps, Births]
  | tickIdle _ hr => simp [Reaps, Births, hr.lives]
  | tick _ hc hr =>
    rw [hr.lives, upd_lives (lives_of_life hc)]
    simp [Reaps, Births]
  | tickEmpty => simp [Reaps, Births]

end Table

/-! ## The run queue -/

namespace Kernel

variable {k k' : Kernel} {e : Event} {a b c : ProcPtr} {q : Proc}

/-- The process that the event reaps: the dead child a `SYS_WAITPID` names. -/
def reaped (k : Kernel) : Event → Option ProcPtr
  | .syscall regs _ =>
    match k.currentProc, k.heap regs.ebx with
    | some c, some q =>
      if regs.eax = sysWaitpid ∧ q.parentPid = c ∧ q.procState = .zombie then some regs.ebx
      else none
    | _, _ => none
  | _ => none

theorem reaped_eq_some : k.reaped e = some b ↔ ∃ regs env c q, e = .syscall regs env ∧
    regs.eax = sysWaitpid ∧ regs.ebx = b ∧ k.currentProc = some c ∧ k.heap b = some q ∧
      q.parentPid = c ∧ q.procState = .zombie := by
  constructor
  · intro h
    cases e with
    | syscall regs env =>
      simp only [reaped] at h
      split at h
      · rename_i c q hcur hq
        split at h
        · rename_i hcond
          cases h
          exact ⟨regs, env, c, q, rfl, hcond.1, rfl, hcur, hq, hcond.2⟩
        · cases h
      · cases h
    | _ => cases h
  · rintro ⟨regs, env, c, q, rfl, hnum, rfl, hcur, hq, hmine, hz⟩
    simp [reaped, hcur, hq, hnum, hmine, hz]

theorem reaped_iff : k.reaped e = some b ↔ k.table.Reaps e.act b := by
  rw [reaped_eq_some]
  constructor
  · rintro ⟨regs, env, c, q, rfl, hnum, rfl, hcur, hq, hmine, hz⟩
    have hcall : regs.call env = .waitpid regs.ebx := by simp [Registers.call, hnum, sysWaitpid,
      sysRead, sysExit, sysExec, sysKill]
    exact ⟨regs.eax, c, q.life, by rw [Event.act, hcall], hcur, table_life hq, hmine, hz⟩
  · rintro ⟨eax, c, l, hact, hcur, hl, hmine, hz⟩
    obtain ⟨q, hq, rfl⟩ := table_life_iff.1 hl
    cases e with
    | syscall regs env =>
      simp only [Event.act, Table.Act.call.injEq] at hact
      obtain ⟨hnum, rfl⟩ := Registers.call_eq_waitpid.1 hact.2
      exact ⟨regs, env, c, q, rfl, hnum, rfl, hcur, hq, hmine, hz⟩
    | key scancode =>
      simp only [Event.act] at hact
      split at hact <;> cases hact
    | _ => cases hact

theorem Shape.lives (hk : k.Shape) : k.table.Lives a ↔ a ∈ k.procs := by
  rw [hk.mem_procs]
  simp [Table.Lives, table, Option.ne_none_iff_exists']

/-- A step leaves the run queue as it is, up to the order, or removes the process
it reaps, or adds a new one. -/
theorem Inv.procs (hk : k.Inv) (h : k.step e = .ok k') :
    (∃ b, k.reaped e = some b ∧ k.procs.Perm (b :: k'.procs)) ∨
    k.reaped e = none ∧ (k'.procs.Perm k.procs ∨
      ∃ b, k.heap b = none ∧ k'.procs.Perm (b :: k.procs)) := by
  obtain ⟨hk', hstep⟩ := hk.step h
  have hmem : ∀ a, a ∈ k'.procs ↔
      a ∈ k.procs ∧ k.reaped e ≠ some a ∨ k.table.Births e.act a := by
    intro a
    rw [← hk'.wf.shape.lives, ← hk.wf.shape.lives, hstep.lives, ne_eq, reaped_iff]
  have hnodup := hk.wf.shape.nodup
  have hnodup' := hk'.wf.shape.nodup
  cases hr : k.reaped e with
  | some b =>
    have hreaps := reaped_iff.1 hr
    have hborn : ∀ a, ¬ k.table.Births e.act a := by
      rintro a ⟨⟨eax, hexec⟩, -⟩
      obtain ⟨eax', c, l, hact, -⟩ := hreaps
      rw [hexec] at hact
      cases hact
    have hb : b ∈ k.procs := by
      obtain ⟨-, -, l, -, -, hl, -⟩ := hreaps
      exact hk.wf.shape.lives.1 (Table.lives_of_life hl)
    have hnotmem : b ∉ k'.procs := by simp [hmem, hr, hborn]
    refine .inl ⟨b, rfl, ?_⟩
    apply (List.perm_ext_iff_of_nodup hnodup (List.nodup_cons.2 ⟨hnotmem, hnodup'⟩)).2
    intro a
    by_cases hab : a = b
    · simp [hab, hb]
    · simp [hmem, hr, hborn, hab, Ne.symm hab]
  | none =>
    refine .inr ⟨rfl, ?_⟩
    by_cases hborn : ∃ eax, e.act = .call eax (.exec true)
    · have hnew : k.pidCounter ∈ k'.procs := (hmem _).2 (.inr ⟨hborn, rfl⟩)
      have hfresh : k.table.life k.pidCounter = none := by
        apply hk.wf.sound.counter
        intro hzero
        have hgone := hk'.wf.sound.zero
        rw [show (0 : UInt32) = k.pidCounter from hzero.symm] at hgone
        exact hk'.wf.shape.lives.2 hnew hgone
      have hnotmem : k.pidCounter ∉ k.procs := fun hin => hk.wf.shape.lives.2 hin hfresh
      refine .inr ⟨k.pidCounter, by simpa [table] using hfresh, ?_⟩
      apply (List.perm_ext_iff_of_nodup hnodup' (List.nodup_cons.2 ⟨hnotmem, hnodup⟩)).2
      intro a
      simp [hmem, hr, Table.Births, hborn, or_comm, table]
    · left
      apply (List.perm_ext_iff_of_nodup hnodup' hnodup).2
      intro a
      simp [hmem, hr, Table.Births, hborn]

end Kernel

end Kaku
