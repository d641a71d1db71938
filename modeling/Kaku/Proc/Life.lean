-- SUMMARY: The lifecycle of processes as an abstract machine, without queues, frames or memory.
import Kaku.Proc.State

/-!
# Process lifecycles

What a process is to the processes and wakers around it: its state, its parent,
the child it waits for, its exit code, and the result register of its pending or
last system call. The machine is what the scheduler and the system calls mean
for these; which ready process is taken next is left open. `Refine.lean` shows
that every step of the kernel is a step of this machine.
-/

namespace Kaku

structure Life where
  state : ProcState
  parent : UInt32
  exitCode : UInt32
  waitingFor : UInt32
  eax : UInt32

namespace Life

/-- Neither blocked nor dead: the process may be dispatched. -/
def Able (l : Life) : Prop :=
  l.state ≠ .blocked ∧ l.state ≠ .zombie

/-- The first dispatch of a process ends its starting phase. -/
def started (l : Life) : Life :=
  if l.state = .starting then { l with state := .ready } else l

@[simp] theorem started_parent (l : Life) : l.started.parent = l.parent := by
  unfold started; split <;> rfl
@[simp] theorem started_exitCode (l : Life) : l.started.exitCode = l.exitCode := by
  unfold started; split <;> rfl
@[simp] theorem started_waitingFor (l : Life) : l.started.waitingFor = l.waitingFor := by
  unfold started; split <;> rfl
@[simp] theorem started_eax (l : Life) : l.started.eax = l.eax := by
  unfold started; split <;> rfl

theorem started_blocked {l : Life} : l.started.state = .blocked ↔ l.state = .blocked := by
  unfold started; split <;> simp_all

theorem started_zombie {l : Life} : l.started.state = .zombie ↔ l.state = .zombie := by
  unfold started; split <;> simp_all

theorem started_able {l : Life} : l.started.Able ↔ l.Able := by
  simp [Able, started_blocked, started_zombie]

end Life

/-- Pids with the lifecycle of each, the process in user mode, the process
registered for standard input, the next pid, and the pids destroyed so far. -/
structure Table where
  life : UInt32 → Option Life
  current : Option UInt32
  waiting : Option UInt32
  counter : UInt32
  destroyed : List UInt32

namespace Table

def upd (T : Table) (a : UInt32) (l : Life) : Table :=
  { T with life := fun b => if b = a then some l else T.life b }

section UpdFields
variable (T : Table) (a : UInt32) (l : Life)

@[simp] theorem upd_life (b : UInt32) :
    (T.upd a l).life b = if b = a then some l else T.life b := rfl
theorem upd_self : (T.upd a l).life a = some l := by simp
@[simp] theorem upd_current : (T.upd a l).current = T.current := rfl
@[simp] theorem upd_waiting : (T.upd a l).waiting = T.waiting := rfl
@[simp] theorem upd_counter : (T.upd a l).counter = T.counter := rfl
@[simp] theorem upd_destroyed : (T.upd a l).destroyed = T.destroyed := rfl

end UpdFields

/-! ## What calls and interrupts do -/

/-- The death of `child` wakes its parent if the parent waits for it. -/
def notify (T : Table) (child : UInt32) : Table :=
  match T.life child with
  | none => T
  | some c =>
    match T.life c.parent with
    | none => T
    | some p =>
      if p.state = .blocked ∧ p.waitingFor = child then
        T.upd c.parent { p with state := .ready, waitingFor := 0 }
      else T

/-- The process `c` dies. -/
def die (T : Table) (c : UInt32) (code : UInt32) : Table :=
  match T.life c with
  | none => T
  | some l => (T.upd c { l with state := .zombie, exitCode := code }).notify c

/-- A dead process is destroyed. -/
def reap (T : Table) (b : UInt32) : Table :=
  { T with
    life := fun a => if a = b then none else T.life a
    destroyed := T.destroyed ++ [b] }

/-- A new process, child of the one in user mode. -/
def spawn (T : Table) : Table :=
  { T.upd T.counter
      { state := .starting, parent := T.current.getD 0, exitCode := 0, waitingFor := 0, eax := 0 }
    with counter := T.counter + 1 }

/-- The system calls, as far as they concern lifecycles. -/
inductive Call
  | read
  | exit (code : UInt32)
  | exec (found : Bool)
  | kill (pid : UInt32)
  | waitpid (pid : UInt32)
  /-- Any other call: it leaves a value in EAX, or nothing. -/
  | other (ret : Option UInt32)
  | getpid

/-- The body of a call of process `c`, before the scheduler looks at it. -/
inductive Body (T : Table) (c : UInt32) (l : Life) : Call → Table → Prop
  | read : Body T c l .read { T.upd c { l with state := .blocked } with waiting := some c }
  | exit (code) : Body T c l (.exit code) (T.die c code)
  | execMissing : Body T c l (.exec false) (T.upd c { l with eax := 0xFFFFFFFF })
  | exec : T.counter ≠ 0 → Body T c l (.exec true) (T.spawn.upd c { l with eax := T.counter })
  | kill {pid b} : T.life pid = some b →
      Body T c l (.kill pid) (T.upd pid { b with state := .zombie })
  | killMissing {pid} : T.life pid = none → Body T c l (.kill pid) T
  | waitMissing {pid} : T.life pid = none →
      Body T c l (.waitpid pid) (T.upd c { l with eax := 0xFFFFFFFF })
  | waitOther {pid b} : T.life pid = some b → b.parent ≠ c →
      Body T c l (.waitpid pid) (T.upd c { l with eax := 0xFFFFFFFE })
  | waitReap {pid b} : T.life pid = some b → b.parent = c → b.state = .zombie → pid ≠ c →
      Body T c l (.waitpid pid) ((T.reap pid).upd c { l with eax := b.exitCode })
  | waitBlock {pid b} : T.life pid = some b → b.parent = c → b.state ≠ .zombie →
      Body T c l (.waitpid pid) (T.upd c { l with state := .blocked, waitingFor := pid })
  | other (v) : Body T c l (.other (some v)) (T.upd c { l with eax := v })
  | otherSilent : Body T c l (.other none) T
  | getpid : Body T c l .getpid (T.upd c { l with eax := c })

/-- The scheduler puts a process into user mode, or idles. -/
inductive Resched (T : Table) : Table → Prop
  | none : Resched T { T with current := none }
  | take {a l} : T.life a = some l → l.Able →
      Resched T { T.upd a l.started with current := some a }
  /-- The path of a page fault does not end the starting phase. -/
  | takeRaw {a l} : T.life a = some l → l.Able → Resched T { T with current := some a }

inductive Act
  /-- A system call, with the EAX it was made with. -/
  | call (eax : UInt32) (f : Call)
  | fault (eax : UInt32)
  | enter
  | key
  | tick (eax : UInt32)

inductive Step (T : Table) : Act → Table → Prop
  /-- A call whose caller goes on. -/
  | call {c l eax f T₁ l₁} : T.current = some c → T.life c = some l →
      Body (T.upd c { l with eax := eax }) c { l with eax := eax } f T₁ →
      T₁.life c = some l₁ → l₁.Able → Step T (.call eax f) T₁
  /-- A call that leaves its caller blocked or dead. -/
  | yield {c l eax f T₁ l₁ T'} : T.current = some c → T.life c = some l →
      Body (T.upd c { l with eax := eax }) c { l with eax := eax } f T₁ →
      T₁.life c = some l₁ → ¬ l₁.Able → Resched T₁ T' → Step T (.call eax f) T'
  | fault {c l eax T'} : T.current = some c → T.life c = some l →
      Resched (((T.upd c { l with eax := eax }).die c 139).notify c) T' → Step T (.fault eax) T'
  | enterNone : T.waiting = none → Step T .enter T
  | enter {w l} : T.waiting = some w → T.life w = some l →
      Step T .enter { T.upd w { l with state := .ready } with waiting := none }
  | key : Step T .key T
  | tickIdle {eax T'} : T.current = none → Resched T T' → Step T (.tick eax) T'
  | tick {c l eax T'} : T.current = some c → T.life c = some l →
      Resched (T.upd c { l with eax := eax }) T' → Step T (.tick eax) T'
  /-- A tick before any process has been created. -/
  | tickEmpty {eax} : T.current = none → Step T (.tick eax) T

/-! ## What every run keeps -/

/-- Pids are handed out in order and never again; a destroyed process is gone. -/
structure Sound (T : Table) : Prop where
  fresh : ∀ a, (∃ l, T.life a = some l) ∨ a ∈ T.destroyed →
    a ≠ 0 ∧ (a < T.counter ∨ T.counter = 0)
  gone : ∀ a ∈ T.destroyed, T.life a = none
  once : T.destroyed.Nodup

/-- Only a live process that may be dispatched is ever in user mode. -/
def Running (T : Table) : Prop :=
  ∀ c, T.current = some c → ∃ l, T.life c = some l ∧ l.Able

variable {T T' T₁ : Table} {a b c w : UInt32} {l l' : Life}

theorem Sound.zero (h : T.Sound) : T.life 0 = none := by
  cases hl : T.life 0 with
  | none => rfl
  | some l => exact absurd rfl (h.fresh 0 (.inl ⟨l, hl⟩)).1

theorem Sound.counter (h : T.Sound) (hc : T.counter ≠ 0) : T.life T.counter = none := by
  cases hl : T.life T.counter with
  | none => rfl
  | some l =>
    rcases (h.fresh _ (.inl ⟨l, hl⟩)).2 with hlt | hzero
    · exact absurd hlt (UInt32.lt_irrefl _)
    · exact absurd hzero hc

theorem Sound.upd (h : T.Sound) (ha : T.life a = some l) : (T.upd a l').Sound where
  fresh := by
    intro b hb
    apply h.fresh b
    rcases hb with ⟨m, hm⟩ | hb
    · by_cases hba : b = a
      · exact .inl ⟨l, hba ▸ ha⟩
      · rw [upd_life, if_neg hba] at hm
        exact .inl ⟨m, hm⟩
    · exact .inr hb
  gone := by
    intro b hb
    have hgone := h.gone b hb
    have hba : b ≠ a := fun heq => by simp [heq, ha] at hgone
    rw [upd_life, if_neg hba]
    exact hgone
  once := h.once

theorem Sound.setCurrent (h : T.Sound) (cur : Option UInt32) :
    ({ T with current := cur } : Table).Sound :=
  ⟨h.fresh, h.gone, h.once⟩

theorem Sound.setWaiting (h : T.Sound) (w : Option UInt32) :
    ({ T with waiting := w } : Table).Sound :=
  ⟨h.fresh, h.gone, h.once⟩

/-- A notification changes lifecycles only. -/
theorem notify_frame (T : Table) (c : UInt32) :
    T.notify c = { T with life := (T.notify c).life } := by
  unfold notify
  split <;> try rfl
  split <;> try rfl
  split <;> rfl

@[simp] theorem notify_current : (T.notify c).current = T.current := by rw [notify_frame]
@[simp] theorem notify_waiting : (T.notify c).waiting = T.waiting := by rw [notify_frame]
@[simp] theorem notify_counter : (T.notify c).counter = T.counter := by rw [notify_frame]
@[simp] theorem notify_destroyed : (T.notify c).destroyed = T.destroyed := by rw [notify_frame]

/-- A notification wakes at most one process: the parent, if it is blocked
waiting for the child. -/
theorem notify_life (a : UInt32) :
    (T.notify c).life a = T.life a ∨
      ∃ m p, T.life c = some m ∧ a = m.parent ∧ T.life a = some p ∧
        p.state = .blocked ∧ p.waitingFor = c ∧
        (T.notify c).life a = some { p with state := .ready, waitingFor := 0 } := by
  unfold notify
  split
  · exact .inl rfl
  · rename_i m hm
    split
    · exact .inl rfl
    · rename_i p hp
      split
      · rename_i hcond
        by_cases ham : a = m.parent
        · subst ham
          exact .inr ⟨m, p, hm, rfl, hp, hcond.1, hcond.2, by simp⟩
        · exact .inl (by simp [ham])
      · exact .inl rfl

/-- The parent that waits for the child is woken. -/
theorem notify_parent {p : Life} (hl : T.life c = some l) (hp : T.life l.parent = some p)
    (hb : p.state = .blocked) (hw : p.waitingFor = c) :
    (T.notify c).life l.parent = some { p with state := .ready, waitingFor := 0 } := by
  simp [notify, hl, hp, hb, hw]

theorem Sound.notify (h : T.Sound) : (T.notify c).Sound := by
  unfold Table.notify
  split
  · exact h
  · split
    · exact h
    · rename_i p hp
      split
      · exact h.upd hp
      · exact h

@[simp] theorem die_current {code : UInt32} : (T.die c code).current = T.current := by
  unfold die; split <;> simp

@[simp] theorem die_waiting {code : UInt32} : (T.die c code).waiting = T.waiting := by
  unfold die; split <;> simp

@[simp] theorem die_counter {code : UInt32} : (T.die c code).counter = T.counter := by
  unfold die; split <;> simp

@[simp] theorem die_destroyed {code : UInt32} : (T.die c code).destroyed = T.destroyed := by
  unfold die; split <;> simp

theorem die_eq {code : UInt32} (h : T.life c = some l) :
    T.die c code = (T.upd c { l with state := .zombie, exitCode := code }).notify c := by
  simp [die, h]

theorem Sound.die {code : UInt32} (h : T.Sound) : (T.die c code).Sound := by
  unfold Table.die
  split
  · exact h
  · rename_i l hl
    exact (h.upd hl).notify

theorem Sound.reap (h : T.Sound) (hb : T.life b = some l) : (T.reap b).Sound where
  fresh := by
    intro a ha
    apply h.fresh a
    rcases ha with ⟨m, hm⟩ | ha
    · by_cases hab : a = b
      · simp [Table.reap, hab] at hm
      · simp only [Table.reap, if_neg hab] at hm
        exact .inl ⟨m, hm⟩
    · simp only [Table.reap, List.mem_append, List.mem_singleton] at ha
      rcases ha with ha | rfl
      · exact .inr ha
      · exact .inl ⟨l, hb⟩
  gone := by
    intro a ha
    simp only [Table.reap, List.mem_append, List.mem_singleton] at ha ⊢
    by_cases hab : a = b
    · simp [hab]
    · rw [if_neg hab]
      exact h.gone a (ha.resolve_right hab)
  once := by
    have hmem : b ∉ T.destroyed := fun hmem => by simp [h.gone b hmem] at hb
    simp only [Table.reap]
    exact List.nodup_append.2 ⟨h.once, List.nodup_singleton b, by
      intro x hx y hy
      simp only [List.mem_singleton] at hy
      rintro rfl
      exact hmem (hy ▸ hx)⟩

theorem lt_succ_or_wrap {a n : UInt32} (h : a < n ∨ a = n) : a < n + 1 ∨ n + 1 = 0 := by
  by_cases hn : n + 1 = 0
  · exact .inr hn
  · left
    have hne : (n + 1).toNat ≠ 0 := fun h0 => hn (UInt32.toNat_inj.1 (by simpa using h0))
    have hlt : n.toNat < 4294967296 := n.toNat_lt
    rw [UInt32.lt_iff_toNat_lt, UInt32.toNat_add] at *
    have hale : a.toNat ≤ n.toNat := by
      rcases h with h | rfl
      · exact Nat.le_of_lt (UInt32.lt_iff_toNat_lt.1 h)
      · exact Nat.le_refl _
    simp only [UInt32.toNat_one] at *
    omega

theorem Sound.spawn (h : T.Sound) (hc : T.counter ≠ 0) : T.spawn.Sound where
  fresh := by
    intro a ha
    have hold : (∃ l, T.life a = some l) ∨ a ∈ T.destroyed → a ≠ 0 ∧ a < T.counter := by
      intro hd
      obtain ⟨h0, hlt⟩ := h.fresh a hd
      exact ⟨h0, hlt.resolve_right hc⟩
    have hcases : a ≠ 0 ∧ (a < T.counter ∨ a = T.counter) := by
      rcases ha with ⟨m, hm⟩ | ha
      · by_cases hac : a = T.counter
        · exact ⟨hac ▸ hc, .inr hac⟩
        · simp only [Table.spawn, upd_life, if_neg hac] at hm
          obtain ⟨h0, hlt⟩ := hold (.inl ⟨m, hm⟩)
          exact ⟨h0, .inl hlt⟩
      · obtain ⟨h0, hlt⟩ := hold (.inr ha)
        exact ⟨h0, .inl hlt⟩
    exact ⟨hcases.1, lt_succ_or_wrap hcases.2⟩
  gone := by
    intro a ha
    have hlt := (h.fresh a (.inr ha)).2.resolve_right hc
    have hac : a ≠ T.counter := fun heq => UInt32.lt_irrefl _ (heq ▸ hlt)
    simp only [Table.spawn, upd_life, if_neg hac]
    exact h.gone a ha
  once := h.once

theorem spawn_life (hc : a ≠ T.counter) : T.spawn.life a = T.life a := by
  simp [spawn, hc]

variable {f : Call}

theorem Body.current (h : Body T c l f T₁) : T₁.current = T.current := by
  cases h <;> simp [spawn, reap]

theorem Body.destroyed (h : Body T c l f T₁) (ha : a ∈ T.destroyed) : a ∈ T₁.destroyed := by
  cases h <;> simp [spawn, reap, ha]

theorem Sound.body (h : T.Sound) (hc : T.life c = some l) (hb : Body T c l f T₁) : T₁.Sound := by
  cases hb with
  | read => exact (h.upd hc).setWaiting _
  | exit code => exact h.die
  | execMissing => exact h.upd hc
  | exec hcnt =>
    have hne : c ≠ T.counter := fun heq => by simp [heq, h.counter hcnt] at hc
    exact (h.spawn hcnt).upd ((spawn_life hne).trans hc)
  | kill hp => exact h.upd hp
  | killMissing _ => exact h
  | waitMissing _ => exact h.upd hc
  | waitOther _ _ => exact h.upd hc
  | waitReap hp _ _ hne =>
    refine (h.reap hp).upd (l := l) ?_
    simpa [Table.reap, Ne.symm hne] using hc
  | waitBlock _ _ _ => exact h.upd hc
  | other v => exact h.upd hc
  | otherSilent => exact h
  | getpid => exact h.upd hc

theorem Sound.resched (h : T.Sound) (hr : Resched T T') : T'.Sound := by
  cases hr with
  | none => exact h.setCurrent _
  | take ha _ => exact (h.upd ha).setCurrent _
  | takeRaw _ _ => exact h.setCurrent _

theorem Resched.running (hr : Resched T T') : T'.Running := by
  intro c hc
  cases hr with
  | none => cases hc
  | @take a l ha hable =>
    simp only [Option.some.injEq] at hc
    subst hc
    exact ⟨l.started, by simp, Life.started_able.2 hable⟩
  | @takeRaw a l ha hable =>
    simp only [Option.some.injEq] at hc
    subst hc
    exact ⟨l, ha, hable⟩

theorem Resched.destroyed (hr : Resched T T') : T'.destroyed = T.destroyed := by
  cases hr <;> rfl

/-- What has been destroyed stays on record. -/
theorem Step.destroyed {x : Act} (hs : Step T x T') (ha : a ∈ T.destroyed) : a ∈ T'.destroyed := by
  cases hs with
  | call _ _ hb _ _ => exact hb.destroyed ha
  | yield _ _ hb _ _ hr => exact hr.destroyed ▸ hb.destroyed ha
  | fault _ _ hr => simpa [hr.destroyed] using ha
  | enterNone _ => exact ha
  | enter _ _ => exact ha
  | key => exact ha
  | tickIdle _ hr => exact hr.destroyed ▸ ha
  | tick _ _ hr => exact hr.destroyed ▸ ha
  | tickEmpty _ => exact ha

theorem Sound.step {x : Act} (h : T.Sound) (hs : Step T x T') : T'.Sound := by
  cases hs with
  | call _ hl hb _ _ => exact (h.upd hl).body (by simp) hb
  | yield _ hl hb _ _ hr => exact ((h.upd hl).body (by simp) hb).resched hr
  | fault _ hl hr => exact (h.upd hl).die.notify.resched hr
  | enterNone _ => exact h
  | enter _ hl => exact (h.upd hl).setWaiting _
  | key => exact h
  | tickIdle _ hr => exact h.resched hr
  | tick _ hl hr => exact (h.upd hl).resched hr
  | tickEmpty _ => exact h

theorem Running.able (hrun : T.Running) (hc : T.current = some c) (hl : T.life c = some l) :
    l.Able := by
  obtain ⟨m, hm, hable⟩ := hrun c hc
  rw [hl, Option.some.injEq] at hm
  exact hm ▸ hable

theorem Running.step {x : Act} (h : T.Running) (hs : Step T x T') : T'.Running := by
  cases hs with
  | call hc _ hb hl₁ hable =>
    intro d hd
    rw [hb.current] at hd
    simp only [upd_current, hc, Option.some.injEq] at hd
    subst hd
    exact ⟨_, hl₁, hable⟩
  | yield _ _ _ _ _ hr => exact hr.running
  | fault _ _ hr => exact hr.running
  | enterNone _ => exact h
  | @enter w l hw hl =>
    intro d hd
    obtain ⟨m, hm, hable⟩ := h d hd
    by_cases hdw : d = w
    · exact ⟨{ l with state := .ready }, by simp [hdw], by simp [Life.Able]⟩
    · exact ⟨m, by simpa [hdw] using hm, hable⟩
  | key => exact h
  | tickIdle _ hr => exact hr.running
  | tick _ _ hr => exact hr.running
  | tickEmpty _ => exact h

end Table

end Kaku
