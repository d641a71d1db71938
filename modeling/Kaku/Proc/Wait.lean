-- SUMMARY: What a parent finds when SYS_WAITPID returns, for both orders of the exit and the wait.
import Kaku.Proc.Waiting

/-!
# Waiting for a child

`__syscall_waitpid` reaps a child that is already dead, and blocks otherwise. The
parent that blocked is woken by `scheduler_notify_parent` and goes back to user
mode from there: the code after the block does not exist, so nothing reaps the
child and EAX still holds the number of the call.

Exit codes and pending calls are not in the kernel's state. A history keeps them
beside it.
-/

namespace Kaku.Table

variable {T T' T₁ : Table} {a b c X : UInt32} {l l' : Life} {f : Call} {x : Act}
variable {exited : UInt32 → Option UInt32} {pending : UInt32 → Option UInt32} {v : Option UInt32}

def record (m : UInt32 → Option UInt32) (a : UInt32) (v : Option UInt32) :
    UInt32 → Option UInt32 :=
  fun b => if b = a then v else m b

@[simp] theorem record_self (m : UInt32 → Option UInt32) : record m a v a = v := by
  simp [record]

theorem record_other {m : UInt32 → Option UInt32} (h : b ≠ a) : record m a v b = m b := by
  simp [record, h]

/-- Every zombie exited with its code, and the processes with a call pending are
exactly the blocked ones. -/
structure Parked (T : Table) (exited pending : UInt32 → Option UInt32) : Prop where
  codes : ∀ a l, T.life a = some l → l.state = .zombie → exited a = some l.exitCode
  waits : ∀ a l, T.life a = some l → l.state = .blocked → pending a = some l.waitingFor
  parked : ∀ a X, pending a = some X → ∃ l, T.life a = some l ∧ l.state = .blocked

/-- What a returned call has to have achieved. -/
def Collected (T : Table) (exited : UInt32 → Option UInt32) (a X : UInt32) : Prop :=
  (∃ l, T.life a = some l ∧ exited X = some l.eax) ∧ T.life X = none ∧ X ∈ T.destroyed

/-- As `Parked`, but the call of the process in user mode may have returned. -/
structure Tracked (T : Table) (exited pending : UInt32 → Option UInt32) : Prop where
  codes : ∀ a l, T.life a = some l → l.state = .zombie → exited a = some l.exitCode
  waits : ∀ a l, T.life a = some l → l.state = .blocked → pending a = some l.waitingFor
  parked : ∀ a X, pending a = some X → (∃ l, T.life a = some l ∧ l.state = .blocked) ∨
    T.current = some a ∧ Collected T exited a X

namespace Parked

theorem pending_none (h : T.Parked exited pending) (ha : ∀ l, T.life a = some l → l.Able) :
    pending a = none := by
  cases hp : pending a with
  | none => rfl
  | some X =>
    obtain ⟨l, hl, hblocked⟩ := h.parked a X hp
    exact absurd hblocked (ha l hl).1

theorem tracked (h : T.Parked exited pending) : T.Tracked exited pending :=
  ⟨h.codes, h.waits, fun a X hp => .inl (h.parked a X hp)⟩

theorem setCurrent (h : T.Parked exited pending) (cur : Option UInt32) :
    ({ T with current := cur } : Table).Parked exited pending :=
  ⟨h.codes, h.waits, h.parked⟩

/-- Updating a process without a pending call. -/
theorem upd_able (h : T.Parked exited pending) (hb : pending b = none) (hable : l.Able) :
    (T.upd b l).Parked exited pending := by
  refine ⟨?_, ?_, ?_⟩
  · intro a m hm hz
    by_cases ha : a = b
    · rw [ha, upd_self, Option.some.injEq] at hm
      exact absurd (hm ▸ hz) hable.2
    · exact h.codes a m (by simpa [ha] using hm) hz
  · intro a m hm hblocked
    by_cases ha : a = b
    · rw [ha, upd_self, Option.some.injEq] at hm
      exact absurd (hm ▸ hblocked) hable.1
    · exact h.waits a m (by simpa [ha] using hm) hblocked
  · intro a X hp
    have ha : a ≠ b := fun heq => by simp [heq, hb] at hp
    obtain ⟨m, hm, hblocked⟩ := h.parked a X hp
    exact ⟨m, by simpa [ha] using hm, hblocked⟩

theorem exit (h : T.Parked exited pending) (hc : pending c = none) {code : UInt32} :
    (T.upd c { l with state := .zombie, exitCode := code }).Parked
      (record exited c (some code)) pending := by
  refine ⟨?_, ?_, ?_⟩
  · intro a m hm hz
    by_cases ha : a = c
    · rw [ha, upd_self, Option.some.injEq] at hm
      rw [ha, record_self, ← hm]
    · rw [record_other ha]
      exact h.codes a m (by simpa [ha] using hm) hz
  · intro a m hm hblocked
    by_cases ha : a = c
    · rw [ha, upd_self, Option.some.injEq] at hm
      rw [← hm] at hblocked
      cases hblocked
    · exact h.waits a m (by simpa [ha] using hm) hblocked
  · intro a X hp
    have ha : a ≠ c := fun heq => by simp [heq, hc] at hp
    obtain ⟨m, hm, hblocked⟩ := h.parked a X hp
    exact ⟨m, by simpa [ha] using hm, hblocked⟩

theorem block (h : T.Parked exited pending) :
    (T.upd c { l with state := .blocked, waitingFor := X }).Parked exited
      (record pending c (some X)) := by
  refine ⟨?_, ?_, ?_⟩
  · intro a m hm hz
    by_cases ha : a = c
    · rw [ha, upd_self, Option.some.injEq] at hm
      rw [← hm] at hz
      cases hz
    · exact h.codes a m (by simpa [ha] using hm) hz
  · intro a m hm hblocked
    by_cases ha : a = c
    · rw [ha, upd_self, Option.some.injEq] at hm
      rw [ha, record_self, ← hm]
    · rw [record_other ha]
      exact h.waits a m (by simpa [ha] using hm) hblocked
  · intro a Y hp
    by_cases ha : a = c
    · exact ⟨{ l with state := .blocked, waitingFor := X }, by simp [ha], rfl⟩
    · rw [record_other ha] at hp
      obtain ⟨m, hm, hblocked⟩ := h.parked a Y hp
      exact ⟨m, by simpa [ha] using hm, hblocked⟩

theorem reap (h : T.Parked exited pending) (hX : T.life X = some l) (hz : l.state = .zombie) :
    (T.reap X).Parked exited pending := by
  refine ⟨?_, ?_, ?_⟩
  · intro a m hm hmz
    by_cases ha : a = X
    · simp [Table.reap, ha] at hm
    · exact h.codes a m (by simpa [Table.reap, ha] using hm) hmz
  · intro a m hm hblocked
    by_cases ha : a = X
    · simp [Table.reap, ha] at hm
    · exact h.waits a m (by simpa [Table.reap, ha] using hm) hblocked
  · intro a Y hp
    obtain ⟨m, hm, hblocked⟩ := h.parked a Y hp
    have ha : a ≠ X := by
      rintro rfl
      rw [hX, Option.some.injEq] at hm
      rw [← hm, hz] at hblocked
      cases hblocked
    exact ⟨m, by simpa [Table.reap, ha] using hm, hblocked⟩

theorem spawn (h : T.Parked exited pending) (hs : T.Sound) (hc : T.counter ≠ 0) :
    T.spawn.Parked exited pending := by
  have hnone : pending T.counter = none :=
    h.pending_none fun l hl => by simp [hs.counter hc] at hl
  have hnew := h.upd_able
    (l := { state := .starting, parent := T.current.getD 0, exitCode := 0, waitingFor := 0, eax := 0 })
    hnone (by simp [Life.Able])
  exact ⟨hnew.codes, hnew.waits, hnew.parked⟩

theorem resched (h : T.Parked exited pending) (hr : Resched T T') :
    T'.Parked exited pending := by
  cases hr with
  | none => exact h.setCurrent _
  | @take a l ha hable =>
    have hnone : pending a = none := h.pending_none fun m hm => by
      rw [ha, Option.some.injEq] at hm
      exact hm ▸ hable
    exact (h.upd_able hnone (Life.started_able.2 hable)).setCurrent _
  | takeRaw _ _ => exact h.setCurrent _

end Parked

/-- The process in user mode acts: its last call is over. -/
theorem Tracked.forget (h : T.Tracked exited pending) (hrun : T.Running)
    (hc : T.current = some c) : T.Parked exited (record pending c none) := by
  refine ⟨h.codes, ?_, ?_⟩
  · intro a l hl hblocked
    have ha : a ≠ c := by
      rintro rfl
      exact (hrun.able hc hl).1 hblocked
    rw [record_other ha]
    exact h.waits a l hl hblocked
  · intro a X hp
    have ha : a ≠ c := fun heq => by simp [heq] at hp
    rw [record_other ha] at hp
    refine (h.parked a X hp).resolve_right ?_
    rintro ⟨hcur, -⟩
    exact ha (Option.some.inj (hcur.symm.trans hc))

/-! ## One step -/

/-- The calls of the waiting protocol, and timer ticks. -/
def Act.Waiting : Act → Prop
  | .call _ (.exit _) | .call _ (.exec _) | .call _ (.waitpid _) | .tick _ => True
  | _ => False

def isChild (T : Table) (c X : UInt32) : Bool := (T.life X).any fun b => b.parent == c

def exitedAfter (T : Table) (x : Act) (exited : UInt32 → Option UInt32) : UInt32 → Option UInt32 :=
  match T.current, x with
  | some c, .call _ (.exit code) => record exited c (some code)
  | _, _ => exited

/-- A call on a child is pending until its process is back in user mode and acts again. -/
def pendingAfter (T : Table) (x : Act) (pending : UInt32 → Option UInt32) :
    UInt32 → Option UInt32 :=
  match T.current, x with
  | some c, .call _ (.waitpid X) => record pending c (if T.isChild c X then some X else none)
  | some c, .call _ _ | some c, .tick _ | some c, .fault _ => record pending c none
  | _, _ => pending

/-- No process exits whose parent is blocked waiting for it. -/
def Unawaited (T : Table) (x : Act) : Prop :=
  ∀ eax code c l p, x = .call eax (.exit code) → T.current = some c → T.life c = some l →
    T.life l.parent = some p → ¬ (p.state = .blocked ∧ p.waitingFor = c)

theorem record_record {m : UInt32 → Option UInt32} {w : Option UInt32} :
    record (record m a w) a v = record m a v := by
  funext b
  by_cases hb : b = a <;> simp [record, hb]

theorem notify_eq_self (h : ∀ m p, T.life c = some m → T.life m.parent = some p →
    ¬ (p.state = .blocked ∧ p.waitingFor = c)) : T.notify c = T := by
  unfold notify
  split
  · rfl
  · rename_i m hm
    split
    · rfl
    · rename_i p hp
      rw [if_neg (h m p hm hp)]

theorem Parked.die (h : T.Parked exited pending) (hl : T.life c = some l)
    (hc : pending c = none) {code : UInt32}
    (hun : ∀ p, T.life l.parent = some p → ¬ (p.state = .blocked ∧ p.waitingFor = c)) :
    (T.die c code).Parked (record exited c (some code)) pending := by
  rw [die_eq hl, notify_eq_self]
  · exact h.exit hc
  · intro m p hm hp
    rw [upd_self, Option.some.injEq] at hm
    subst hm
    by_cases hpc : l.parent = c
    · rw [hpc, upd_self, Option.some.injEq] at hp
      simp [← hp]
    · rw [upd_life, if_neg hpc] at hp
      exact hun p hp

/-- The waiter has reaped: the child is off the table, and its code is in the register. -/
theorem Parked.reaped {b : Life} (h : T.Parked exited (record pending c none))
    (hc : T.current = some c) (hX : T.life X = some b) (hz : b.state = .zombie) (hne : X ≠ c)
    (hable : l.Able) :
    ((T.reap X).upd c { l with eax := b.exitCode }).Tracked exited (record pending c (some X)) := by
  have hcode := h.codes X b hX hz
  have hdone := (h.reap hX hz).upd_able (l := { l with eax := b.exitCode }) (b := c)
    (record_self _) hable
  refine ⟨hdone.codes, ?_, ?_⟩
  · intro a m hm hblocked
    have ha : a ≠ c := by
      rintro rfl
      rw [upd_self, Option.some.injEq] at hm
      rw [← hm] at hblocked
      exact hable.1 hblocked
    have hwait := hdone.waits a m hm hblocked
    rw [record_other ha] at hwait ⊢
    exact hwait
  · intro a Y hp
    by_cases ha : a = c
    · rw [ha, record_self, Option.some.injEq] at hp
      subst hp ha
      refine .inr ⟨hc, ⟨_, upd_self .., hcode⟩, ?_, ?_⟩
      · rw [upd_life, if_neg hne]
        simp [Table.reap]
      · simp [Table.reap]
    · rw [record_other ha] at hp
      exact .inl (hdone.parked a Y ((record_other ha).trans hp))

theorem Tracked.body {eax : UInt32} (h : T.Parked exited (record pending c none)) (hs : T.Sound)
    (hc : T.current = some c) (hl : T.life c = some l) (hable : l.Able)
    (hx : (Act.call eax f).Waiting) (hun : Unawaited T (.call eax f))
    (hb : Body (T.upd c { l with eax := eax }) c { l with eax := eax } f T₁) :
    T₁.Parked (T.exitedAfter (.call eax f) exited) (T.pendingAfter (.call eax f) pending) ∨
      T₁.Tracked (T.exitedAfter (.call eax f) exited) (T.pendingAfter (.call eax f) pending) ∧
        ∀ l₁, T₁.life c = some l₁ → l₁.Able := by
  have hchild : ∀ X, (T.upd c { l with eax := eax }).isChild c X = T.isChild c X := by
    intro X
    by_cases hX : X = c
    · simp [isChild, hX, hl]
    · simp [isChild, hX]
  have hP : (T.upd c { l with eax := eax }).Parked exited (record pending c none) :=
    h.upd_able (record_self _) hable
  have hS : (T.upd c { l with eax := eax }).Sound := hs.upd hl
  have hset : ∀ v, ((T.upd c { l with eax := eax }).upd c { l with eax := v }).Parked exited
      (record pending c none) := fun v => hP.upd_able (record_self _) hable
  cases hb with
  | exit code =>
    left
    simp only [exitedAfter, pendingAfter, hc]
    refine hP.die (upd_self ..) (record_self _) fun p hp => ?_
    by_cases hpc : l.parent = c
    · rw [hpc, upd_self, Option.some.injEq] at hp
      rw [← hp]
      exact fun hno => hable.1 hno.1
    · rw [upd_life, if_neg hpc] at hp
      exact hun eax code c l p rfl hc hl hp
  | execMissing =>
    left
    simp only [exitedAfter, pendingAfter, hc]
    exact hset _
  | exec hcnt =>
    left
    simp only [exitedAfter, pendingAfter, hc]
    exact (hP.spawn hS hcnt).upd_able (record_self _) hable
  | @waitMissing X hX =>
    left
    have hno : T.isChild c X = false := by
      rw [← hchild, isChild, hX]
      rfl
    simp only [exitedAfter, pendingAfter, hc, hno]
    exact hset _
  | @waitOther X b hX hpar =>
    left
    have hno : T.isChild c X = false := by
      rw [← hchild, isChild, hX]
      simpa using hpar
    simp only [exitedAfter, pendingAfter, hc, hno]
    exact hset _
  | @waitReap X b hX hpar hz hne =>
    right
    have hyes : T.isChild c X = true := by
      rw [← hchild, isChild, hX]
      simpa using hpar
    simp only [exitedAfter, pendingAfter, hc, hyes, if_true]
    refine ⟨hP.reaped hc hX hz hne hable, fun l₁ hl₁ => ?_⟩
    rw [upd_self, Option.some.injEq] at hl₁
    exact hl₁ ▸ hable
  | @waitBlock X b hX hpar hz =>
    left
    have hyes : T.isChild c X = true := by
      rw [← hchild, isChild, hX]
      simpa using hpar
    simp only [exitedAfter, pendingAfter, hc, hyes, if_true]
    rw [← record_record (w := none)]
    exact hP.block (l := { l with eax := eax })
  | _ => exact hx.elim

theorem Tracked.step (h : T.Tracked exited pending) (hs : T.Sound) (hrun : T.Running)
    (hx : x.Waiting) (hun : Unawaited T x) (hst : Step T x T') :
    T'.Tracked (T.exitedAfter x exited) (T.pendingAfter x pending) := by
  cases hst with
  | call hc hl hb hl₁ hable₁ =>
    rcases Tracked.body (h.forget hrun hc) hs hc hl (hrun.able hc hl) hx hun hb with hP | ⟨hT, -⟩
    · exact hP.tracked
    · exact hT
  | yield hc hl hb hl₁ hno hr =>
    rcases Tracked.body (h.forget hrun hc) hs hc hl (hrun.able hc hl) hx hun hb with hP | ⟨-, hgo⟩
    · exact (hP.resched hr).tracked
    · exact absurd (hgo _ hl₁) hno
  | tickIdle hc hr =>
    simp only [exitedAfter, pendingAfter, hc]
    have hP : T.Parked exited pending :=
      ⟨h.codes, h.waits, fun a X hp => (h.parked a X hp).resolve_right (by simp [hc])⟩
    exact (hP.resched hr).tracked
  | @tick c l eax _ hc hl hr =>
    simp only [exitedAfter, pendingAfter, hc]
    have hable := hrun.able hc hl
    have hP : (T.upd c { l with eax := eax }).Parked exited (record pending c none) :=
      (h.forget hrun hc).upd_able (record_self _) hable
    exact (hP.resched hr).tracked
  | tickEmpty hc =>
    simp only [exitedAfter, pendingAfter, hc]
    exact h
  | _ => exact hx.elim

/-- The exit of a child that its parent is blocked for: the parent becomes
runnable, and the child stays where it was. -/
theorem Step.awaited_exit {eax code : UInt32} {p : Life} (hrun : T.Running)
    (hc : T.current = some c) (hl : T.life c = some l) (hp : T.life l.parent = some p)
    (hblocked : p.state = .blocked) (hwait : p.waitingFor = c)
    (hst : Step T (.call eax (.exit code)) T') :
    (∃ p', T'.life l.parent = some p' ∧ p'.Able) ∧ ∃ l', T'.life c = some l' := by
  have hpc : l.parent ≠ c := by
    intro heq
    rw [heq, hl, Option.some.injEq] at hp
    exact (hrun.able hc hl).1 (hp ▸ hblocked)
  have hbody : ∀ {c₀ l₀ T₁}, T.current = some c₀ → T.life c₀ = some l₀ →
      Body (T.upd c₀ { l₀ with eax := eax }) c₀ { l₀ with eax := eax } (.exit code) T₁ →
      T₁.life l.parent = some { p with state := .ready, waitingFor := 0 } ∧
        ∃ l', T₁.life c = some l' ∧ ¬ l'.Able := by
    intro c₀ l₀ T₁ hc₀ hl₀ hb
    obtain rfl : c = c₀ := Option.some.inj (hc.symm.trans hc₀)
    obtain rfl : l = l₀ := Option.some.inj (hl.symm.trans hl₀)
    cases hb
    rw [die_eq (upd_self ..)]
    refine ⟨notify_parent (l := { l with state := .zombie, exitCode := code, eax := eax })
      (upd_self ..) ?_ hblocked hwait, ?_⟩
    · rw [upd_life, if_neg hpc, upd_life, if_neg hpc]
      exact hp
    · rcases notify_life (T := (T.upd c { l with eax := eax }).upd c
        { l with state := .zombie, exitCode := code, eax := eax }) (c := c) c with
        hsame | ⟨m, -, hm, hcm, -⟩
      · exact ⟨_, hsame.trans (upd_self ..), fun hable => hable.2 rfl⟩
      · rw [upd_self, Option.some.injEq] at hm
        rw [← hm] at hcm
        exact absurd hcm.symm hpc
  cases hst with
  | call hc₀ hl₀ hb hl₁ hable =>
    obtain ⟨-, l', hl', hno⟩ := hbody hc₀ hl₀ hb
    rw [← Option.some.inj (hc.symm.trans hc₀), hl', Option.some.injEq] at hl₁
    exact absurd (hl₁ ▸ hable) hno
  | yield hc₀ hl₀ hb _ _ hr =>
    obtain ⟨hready, l', hl', hno⟩ := hbody hc₀ hl₀ hb
    have hable : ({ p with state := .ready, waitingFor := 0 } : Life).Able := by simp [Life.Able]
    cases hr with
    | none => exact ⟨⟨_, hready, hable⟩, l', hl'⟩
    | @take a m ha hma =>
      refine ⟨?_, ?_⟩
      · by_cases hap : l.parent = a
        · exact ⟨m.started, by simp [hap], Life.started_able.2 hma⟩
        · exact ⟨_, by simpa [hap] using hready, hable⟩
      · by_cases hac : c = a
        · exact ⟨m.started, by simp [hac]⟩
        · exact ⟨l', by simpa [hac] using hl'⟩
    | takeRaw _ _ => exact ⟨⟨_, hready, hable⟩, l', hl'⟩

end Kaku.Table

/-! ## Runs of the kernel -/

namespace Kaku

/-- The kernel, with the codes processes exited with and, for each process, the
child its pending `SYS_WAITPID` names. -/
structure Observed where
  kernel : Kernel
  exited : ProcPtr → Option UInt32
  pending : ProcPtr → Option ProcPtr

namespace Observed

def start (k : Kernel) : Observed := ⟨k, fun _ => none, fun _ => none⟩

def step (o : Observed) (e : Event) : K Observed := do
  let k ← o.kernel.step e
  pure {
    kernel := k
    exited := o.kernel.table.exitedAfter e.act o.exited
    pending := o.kernel.table.pendingAfter e.act o.pending }

/-- Only exec, exit, waitpid and ticks, and no process exits whose parent is
BLOCKED waiting for it. -/
def ExitsFirst (o : Observed) (e : Event) : Prop :=
  e.waiting = true ∧ (e.exits = true → ∀ c ∈ o.kernel.currentProc, ∀ p ∈ o.kernel.heap c,
    o.kernel.waitsFor p.parentPid c = false)

instance (o : Observed) (e : Event) : Decidable (ExitsFirst o e) :=
  decidable_of_iff
    (e.waiting && (!e.exits || o.kernel.currentProc.all fun c => (o.kernel.heap c).all fun p =>
      !o.kernel.waitsFor p.parentPid c))
    (by simp [ExitsFirst, Option.all_eq_true, imp_iff_not_or])

/-- Whenever a process is in user mode with a `SYS_WAITPID` on a child returned
and the child has exited, EAX holds the child's code and the child is gone. -/
def WaitReturned (o : Observed) : Prop :=
  ∀ c X code, o.kernel.currentProc = some c → o.pending c = some X → o.exited X = some code →
    (∃ p, o.kernel.heap c = some p ∧ p.frame.eax = code) ∧ X ∉ o.kernel.procs ∧
      o.kernel.destroyed.count X = 1

variable {genkan : Image} {k₀ : Kernel} {o o' : Observed} {es : List Event} {e : Event}

theorem step_eq_ok (h : o.step e = .ok o') :
    o.kernel.step e = .ok o'.kernel ∧ o'.exited = o.kernel.table.exitedAfter e.act o.exited ∧
      o'.pending = o.kernel.table.pendingAfter e.act o.pending := by
  simp only [step, bind_eq_ok, pure_eq_ok] at h
  obtain ⟨k, hk, rfl⟩ := h
  exact ⟨hk, rfl, rfl⟩

theorem waiting_act (h : e.waiting = true) : e.act.Waiting := by
  cases e with
  | syscall regs env =>
    simp only [Event.waiting, Bool.or_eq_true, beq_iff_eq] at h
    rcases h with (h | h) | h <;> simp only [Event.act, Registers.call, h] <;> exact trivial
  | timer regs => trivial
  | pageFault regs => cases h
  | key scancode => cases h

/-- An exit that a blocked parent waits for, in the kernel and in the table. -/
theorem unawaited_iff :
    (e.exits = true → ∀ c ∈ o.kernel.currentProc, ∀ p ∈ o.kernel.heap c,
      o.kernel.waitsFor p.parentPid c = false) ↔ o.kernel.table.Unawaited e.act := by
  constructor
  · intro h eax code c l p hact hc hl hp hno
    obtain ⟨child, hchild, rfl⟩ := Kernel.table_life_iff.1 hl
    obtain ⟨parent, hparent, rfl⟩ := Kernel.table_life_iff.1 hp
    have hexit : e.exits = true := by
      cases e with
      | syscall regs env =>
        simp only [Event.act, Table.Act.call.injEq, Registers.call_eq_exit] at hact
        simp [Event.exits, hact.2.1]
      | key scancode =>
        simp only [Event.act] at hact
        split at hact <;> cases hact
      | _ => cases hact
    have hwait := h hexit c hc child hchild
    have hparent' : o.kernel.heap child.parentPid = some parent := hparent
    have hblocked : parent.procState = .blocked := hno.1
    have hfor : parent.waitingFor = c := hno.2
    simp [Kernel.waitsFor, hparent', hblocked, hfor] at hwait
  · intro h hexit c hc child hchild
    cases e with
    | syscall regs env =>
      have hact : (Event.syscall regs env).act = .call regs.eax (.exit regs.ebx) := by
        rw [Event.act, Registers.call_eq_exit.2 ⟨by simpa [Event.exits] using hexit, rfl⟩]
      cases hp : o.kernel.heap child.parentPid with
      | none => simp [Kernel.waitsFor, hp]
      | some parent =>
        have hno := h regs.eax regs.ebx c child.life parent.life hact hc
          (Kernel.table_life hchild) (Kernel.table_life hp)
        simpa [Kernel.waitsFor, hp, Proc.life] using hno
    | _ => cases hexit

/-- The invariant of the runs in which children exit before they are waited for. -/
structure Waits (o : Observed) : Prop where
  inv : o.kernel.Inv
  tracked : o.kernel.table.Tracked o.exited o.pending

theorem Waits.start (h : Kernel.boot genkan = .ok k₀) : (start k₀).Waits := by
  refine ⟨.boot h, ?_⟩
  have htab := (Kernel.boot_wf h).2
  have hempty : Kernel.init.table.Parked (fun _ => none) (fun _ => none) := by
    refine ⟨?_, ?_, ?_⟩ <;> simp [Kernel.table, Kernel.init]
  have hsound : Kernel.init.table.Sound :=
    ⟨by simp [Kernel.table, Kernel.init], by simp [Kernel.table, Kernel.init],
      by simp [Kernel.table, Kernel.init]⟩
  have hspawn := hempty.spawn hsound (by decide)
  rw [← htab] at hspawn
  exact hspawn.tracked

theorem Waits.step (ho : o.Waits) (hC : ExitsFirst o e) (h : o.step e = .ok o') : o'.Waits := by
  obtain ⟨hstep, hex, hpe⟩ := step_eq_ok h
  obtain ⟨hinv, htstep⟩ := ho.inv.step hstep
  refine ⟨hinv, ?_⟩
  rw [hex, hpe]
  exact ho.tracked.step ho.inv.wf.sound ho.inv.wf.running (waiting_act hC.1)
    (unawaited_iff.1 hC.2) htstep

theorem Waits.run (ho : o.Waits) (h : Run (Guarded ExitsFirst Observed.step) o es o') : o'.Waits :=
  h.invariant (fun _ _ _ hst hs => hs.step hst.1 hst.2) ho

theorem Waits.returned (ho : o.Waits) : o.WaitReturned := by
  intro c X code hc hp hx
  rcases ho.tracked.parked c X hp with ⟨l, hl, hblocked⟩ | ⟨-, ⟨l, hl, hcode⟩, hgone, hd⟩
  · exact absurd hblocked (ho.inv.wf.running.able hc hl).1
  · obtain ⟨p, hheap, rfl⟩ := Kernel.table_life_iff.1 hl
    rw [hx, Option.some.injEq] at hcode
    refine ⟨⟨p, hheap, hcode.symm⟩, fun hmem => ?_, ?_⟩
    · obtain ⟨q, hq⟩ := (ho.inv.wf.shape.mem_procs X).1 hmem
      rw [Kernel.table_life hq] at hgone
      cases hgone
    · exact List.count_eq_one_of_mem ho.inv.wf.sound.once hd

/-- In every run from boot of execs, exits, waits and ticks in which no process
exits while its parent is BLOCKED waiting for it, each `SYS_WAITPID` that returns
gives the child's exit code and has removed and destroyed the child once. An exit
with the parent BLOCKED makes the parent runnable with the child still there. -/
theorem waitpid_returns (hboot : Kernel.boot genkan = .ok k₀)
    (hrun : Run (Guarded ExitsFirst step) (start k₀) es o) :
    o.WaitReturned ∧ ∀ e o', o.step e = .ok o' → e.waiting = true → ¬ ExitsFirst o e →
      ∃ a X code p, o'.pending a = some X ∧ o'.exited X = some code ∧
        o'.kernel.heap a = some p ∧ p.skipped = false ∧ X ∈ o'.kernel.procs := by
  have ho := (Waits.start hboot).run hrun
  refine ⟨ho.returned, fun e o' hstep hwaiting hC => ?_⟩
  obtain ⟨hkstep, hex, hpe⟩ := step_eq_ok hstep
  obtain ⟨hinv, htstep⟩ := ho.inv.step hkstep
  have hawaited : ¬ o.kernel.table.Unawaited e.act := fun hno =>
    hC ⟨hwaiting, unawaited_iff.2 hno⟩
  simp only [Table.Unawaited, not_forall, not_not] at hawaited
  obtain ⟨eax, code, c, l, p, hact, hc, hl, hp, hblocked, hwait⟩ := hawaited
  rw [hact] at htstep hex hpe
  obtain ⟨⟨p', hp', hable⟩, l', hl'⟩ :=
    htstep.awaited_exit ho.inv.wf.running hc hl hp hblocked hwait
  obtain ⟨o₁, ho₁, rfl⟩ := Kernel.table_life_iff.1 hp'
  obtain ⟨o₂, ho₂, rfl⟩ := Kernel.table_life_iff.1 hl'
  have hpc : l.parent ≠ c := by
    intro heq
    rw [heq, hl, Option.some.injEq] at hp
    exact (ho.inv.wf.running.able hc hl).1 (hp ▸ hblocked)
  refine ⟨l.parent, c, code, o₁, ?_, ?_, ho₁, Proc.able_iff.1 hable, ?_⟩
  · rw [hpe]
    simp only [Table.pendingAfter, hc]
    rw [Table.record_other hpc, ho.tracked.waits _ _ hp hblocked, hwait]
  · rw [hex]
    simp only [Table.exitedAfter, hc]
    exact Table.record_self _
  · exact (hinv.wf.shape.mem_procs c).2 ⟨o₂, ho₂⟩

theorem exists_run_of_start (C : Observed → Event → Prop) [∀ o e, Decidable (C o e)]
    (genkan : Image) (es : List Event) (p : Observed → Bool)
    (h : (Kernel.boot genkan).toOption.any
      (fun k => (execAll C step (start k) es).any p) = true) :
    ∃ k₀ o, Kernel.boot genkan = .ok k₀ ∧ Run (Guarded C step) (start k₀) es o ∧ p o = true := by
  obtain ⟨k₀, hboot, hexec⟩ := toOption_any.1 h
  obtain ⟨o, hrun, hp⟩ := exists_run_of_execAll hexec
  exact ⟨k₀, o, hboot, hrun, hp⟩

open Kernel (bareImage tick trap trapExec)

theorem waitpid_returns_reaped :
    ∃ k₀ o, Kernel.boot bareImage = .ok k₀ ∧
      Run (Guarded ExitsFirst step) (start k₀)
        [tick, trapExec, tick, trap sysExit 7, trap sysWaitpid 2] o ∧
      o.pending 1 = some 2 ∧ o.exited 2 = some 7 ∧ o.WaitReturned := by
  obtain ⟨k₀, o, hboot, hrun, hp⟩ := exists_run_of_start ExitsFirst bareImage
    [tick, trapExec, tick, trap sysExit 7, trap sysWaitpid 2]
    (fun o => decide (o.pending 1 = some 2 ∧ o.exited 2 = some 7)) (by decide)
  obtain ⟨hpending, hexited⟩ := of_decide_eq_true hp
  exact ⟨k₀, o, hboot, hrun, hpending, hexited, (waitpid_returns hboot hrun).1⟩

/-- The parent blocks first: when it runs again EAX still holds the number of
`SYS_WAITPID`, and the ZOMBIE child is in `procs`. -/
theorem waitpid_misled :
    ∃ k₀ o, Kernel.boot bareImage = .ok k₀ ∧
      Run (Guarded (fun _ e => e.waiting = true) step) (start k₀)
        [tick, trapExec, trap sysWaitpid 2, trap sysExit 7] o ∧
      o.kernel.currentProc = some 1 ∧ o.pending 1 = some 2 ∧ o.exited 2 = some 7 ∧
      (o.kernel.heap 1).map (fun p => p.frame.eax) = some 10 ∧ 2 ∈ o.kernel.procs ∧
      ¬ o.WaitReturned := by
  obtain ⟨k₀, o, hboot, hrun, hp⟩ := exists_run_of_start
    (fun _ e => e.waiting = true) bareImage
    [tick, trapExec, trap sysWaitpid 2, trap sysExit 7]
    (fun o => decide (o.kernel.currentProc = some 1 ∧ o.pending 1 = some 2 ∧
      o.exited 2 = some 7 ∧ (o.kernel.heap 1).map (fun p => p.frame.eax) = some 10 ∧
      2 ∈ o.kernel.procs)) (by decide)
  obtain ⟨hcur, hpending, hexited, heax, hmem⟩ := of_decide_eq_true hp
  refine ⟨k₀, o, hboot, hrun, hcur, hpending, hexited, heax, hmem, fun hreturned => ?_⟩
  exact (hreturned 1 2 7 hcur hpending hexited).2.1 hmem

end Observed

end Kaku
