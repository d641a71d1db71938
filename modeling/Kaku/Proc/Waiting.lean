-- SUMMARY: What the wait fields of processes mean, in every run: a process waits for at most one thing.
import Kaku.Lib.Run
import Kaku.Proc.Refine

/-!
# Wait fields

Two fields record what a blocked process waits for: the slot `__waiting_stdin`
names one reader, and `waiting_for` names a child. In every run, whatever the
calls, a process that can be dispatched waits for nothing, the registered reader
waits for no child, and who waits for a process is its parent.
-/

namespace Kaku.Table

structure WaitFields (T : Table) : Prop where
  able : ∀ a l, T.life a = some l → l.Able → l.waitingFor = 0
  reader : ∀ a l, T.waiting = some a → T.life a = some l → ¬ l.Able ∧ l.waitingFor = 0
  known : ∀ a, T.waiting = some a → (∃ l, T.life a = some l) ∨ a ∈ T.destroyed
  child : ∀ a l c, T.life a = some l → l.waitingFor ≠ 0 → T.life l.waitingFor = some c →
    c.parent = a
  born : ∀ a l, T.life a = some l → l.waitingFor ≠ 0 →
    l.waitingFor < T.counter ∨ T.counter = 0

namespace WaitFields

variable {T T' T₁ : Table} {a b c w : UInt32} {l l' m : Life} {f : Call} {x : Act}

/-- Updating one process, whose parent stays the same. -/
theorem upd (h : T.WaitFields) (ha : T.life a = some l) (hpar : l'.parent = l.parent)
    (hable : l'.Able → l'.waitingFor = 0)
    (hreader : T.waiting = some a → ¬ l'.Able ∧ l'.waitingFor = 0)
    (hwait : l'.waitingFor ≠ 0 → l'.waitingFor = l.waitingFor ∨
      (∃ c, T.life l'.waitingFor = some c ∧ c.parent = a) ∧
        (l'.waitingFor < T.counter ∨ T.counter = 0)) :
    (T.upd a l').WaitFields where
  able := by
    intro b m hm hmable
    by_cases hb : b = a
    · simp only [upd_life, hb, if_true, Option.some.injEq] at hm
      subst hm
      exact hable hmable
    · simp only [upd_life, if_neg hb] at hm
      exact h.able b m hm hmable
  reader := by
    intro b m hw hm
    by_cases hb : b = a
    · simp only [upd_life, hb, if_true, Option.some.injEq] at hm
      subst hm
      exact hreader (hb ▸ hw)
    · simp only [upd_life, if_neg hb] at hm
      exact h.reader b m hw hm
  known := by
    intro b hw
    rcases h.known b hw with ⟨m, hm⟩ | hd
    · by_cases hb : b = a
      · exact .inl ⟨l', by simp [hb]⟩
      · exact .inl ⟨m, by simpa [hb] using hm⟩
    · exact .inr hd
  child := by
    intro b m c hm hne hc
    -- The child's own record may be the one updated; its parent field is not.
    obtain ⟨c', hc', hcpar⟩ : ∃ c', T.life m.waitingFor = some c' ∧ c.parent = c'.parent := by
      by_cases hma : m.waitingFor = a
      · simp only [upd_life, hma, if_true, Option.some.injEq] at hc
        subst hc
        exact ⟨l, hma ▸ ha, hpar⟩
      · simp only [upd_life, if_neg hma] at hc
        exact ⟨c, hc, rfl⟩
    rw [hcpar]
    by_cases hb : b = a
    · simp only [upd_life, hb, if_true, Option.some.injEq] at hm
      subst hm
      rcases hwait hne with heq | ⟨⟨d, hd, hdpar⟩, -⟩
      · rw [hb]
        exact h.child a l c' ha (heq ▸ hne) (heq ▸ hc')
      · rw [hc', Option.some.injEq] at hd
        rw [hd, hb]
        exact hdpar
    · simp only [upd_life, if_neg hb] at hm
      exact h.child b m c' hm hne hc'
  born := by
    intro b m hm hne
    by_cases hb : b = a
    · simp only [upd_life, hb, if_true, Option.some.injEq] at hm
      subst hm
      rcases hwait hne with heq | ⟨-, hlt⟩
      · rw [heq]
        exact h.born a l ha (heq ▸ hne)
      · exact hlt
    · simp only [upd_life, if_neg hb] at hm
      exact h.born b m hm hne

/-- Updating the result register only. -/
theorem setEax (h : T.WaitFields) (ha : T.life a = some l) (v : UInt32) :
    (T.upd a { l with eax := v }).WaitFields :=
  h.upd ha rfl (fun hable => h.able a l ha hable) (fun hw => h.reader a l hw ha)
    fun _ => .inl rfl

theorem setCurrent (h : T.WaitFields) (cur : Option UInt32) :
    ({ T with current := cur } : Table).WaitFields :=
  ⟨h.able, h.reader, h.known, h.child, h.born⟩

/-- Killing leaves the wait fields as they are. -/
theorem kill (h : T.WaitFields) (ha : T.life a = some l) (code : UInt32) :
    (T.upd a { l with state := .zombie, exitCode := code }).WaitFields :=
  h.upd ha rfl (fun hable => absurd rfl hable.2)
    (fun hw => ⟨fun hable => hable.2 rfl, (h.reader a l hw ha).2⟩) fun _ => .inl rfl

theorem notify (h : T.WaitFields) (hs : T.Sound) : (T.notify c).WaitFields := by
  unfold Table.notify
  split
  · exact h
  rename_i m hm
  split
  · exact h
  rename_i p hp
  split
  · rename_i hcond
    refine h.upd hp rfl (fun _ => rfl) (fun hw => ?_) (fun hne => absurd rfl hne)
    -- The reader waits for no child, and the dead child's pid is not 0.
    have hzero := (h.reader _ _ hw hp).2
    rw [hcond.2] at hzero
    exact absurd hzero (hs.fresh c (.inl ⟨m, hm⟩)).1
  · exact h

theorem die (h : T.WaitFields) (hs : T.Sound) {code : UInt32} : (T.die c code).WaitFields := by
  unfold Table.die
  split
  · exact h
  · rename_i l hl
    exact (h.kill hl code).notify (hs.upd hl)

theorem reap (h : T.WaitFields) : (T.reap b).WaitFields where
  able := by
    intro a m hm
    by_cases hab : a = b
    · simp [Table.reap, hab] at hm
    · simp only [Table.reap, if_neg hab] at hm
      exact h.able a m hm
  reader := by
    intro a m hw hm
    by_cases hab : a = b
    · simp [Table.reap, hab] at hm
    · simp only [Table.reap, if_neg hab] at hm
      exact h.reader a m hw hm
  known := by
    intro a hw
    simp only [Table.reap, List.mem_append, List.mem_singleton]
    by_cases hab : a = b
    · exact .inr (.inr hab)
    · rcases h.known a hw with ⟨m, hm⟩ | hd
      · exact .inl ⟨m, by simpa [hab] using hm⟩
      · exact .inr (.inl hd)
  child := by
    intro a m c hm hne hc
    by_cases hab : a = b
    · simp [Table.reap, hab] at hm
    by_cases hwb : m.waitingFor = b
    · simp [Table.reap, hwb] at hc
    simp only [Table.reap, if_neg hab, if_neg hwb] at hm hc
    exact h.child a m c hm hne hc
  born := by
    intro a m hm
    by_cases hab : a = b
    · simp [Table.reap, hab] at hm
    · simp only [Table.reap, if_neg hab] at hm
      exact h.born a m hm

theorem spawn (h : T.WaitFields) (hs : T.Sound) (hc : T.counter ≠ 0) : T.spawn.WaitFields := by
  have hnew : ∀ a, (∃ l, T.life a = some l) ∨ a ∈ T.destroyed → a ≠ T.counter := by
    rintro a ha rfl
    exact UInt32.lt_irrefl _ ((hs.fresh _ ha).2.resolve_right hc)
  have hlt : ∀ a, a < T.counter → a < T.counter + 1 ∨ T.counter + 1 = 0 :=
    fun a ha => lt_succ_or_wrap (.inl ha)
  refine ⟨?_, ?_, ?_, ?_, ?_⟩
  · intro a l hl hable
    by_cases ha : a = T.counter
    · simp only [Table.spawn, upd_life, ha, if_true, Option.some.injEq] at hl
      rw [← hl]
    · rw [spawn_life ha] at hl
      exact h.able a l hl hable
  · intro a l hw hl
    rw [spawn_life (hnew a (h.known a hw))] at hl
    exact h.reader a l hw hl
  · intro a hw
    rcases h.known a hw with ⟨l, hl⟩ | hd
    · exact .inl ⟨l, (spawn_life (hnew a (.inl ⟨l, hl⟩))).trans hl⟩
    · exact .inr hd
  · intro a l c hl hne hc'
    by_cases ha : a = T.counter
    · simp only [Table.spawn, upd_life, ha, if_true, Option.some.injEq] at hl
      exact absurd (by rw [← hl]) hne
    · rw [spawn_life ha] at hl
      have hborn := (h.born a l hl hne).resolve_right hc
      rw [spawn_life fun heq => UInt32.lt_irrefl _ (heq ▸ hborn)] at hc'
      exact h.child a l c hl hne hc'
  · intro a l hl hne
    by_cases ha : a = T.counter
    · simp only [Table.spawn, upd_life, ha, if_true, Option.some.injEq] at hl
      exact absurd (by rw [← hl]) hne
    · rw [spawn_life ha] at hl
      exact hlt _ ((h.born a l hl hne).resolve_right hc)

theorem body (h : T.WaitFields) (hs : T.Sound) (hc : T.life c = some l) (hable : l.Able)
    (hb : Body T c l f T₁) : T₁.WaitFields := by
  have hzero : l.waitingFor = 0 := h.able c l hc hable
  have hnot : T.waiting ≠ some c := fun hw => (h.reader c l hw hc).1 hable
  cases hb with
  | read =>
    have hu : (T.upd c { l with state := .blocked }).WaitFields :=
      h.upd hc rfl (fun hb => absurd rfl hb.1) (fun hw => absurd hw hnot) fun _ => .inl rfl
    refine ⟨hu.able, ?_, ?_, hu.child, hu.born⟩
    · intro a m hw hm
      simp only [Option.some.injEq] at hw
      subst hw
      simp only [upd_life, if_true, Option.some.injEq] at hm
      subst hm
      exact ⟨fun hb => hb.1 rfl, hzero⟩
    · intro a hw
      simp only [Option.some.injEq] at hw
      subst hw
      exact .inl ⟨{ l with state := .blocked }, by simp⟩
  | exit code => exact h.die hs
  | execMissing => exact h.setEax hc _
  | exec hcnt =>
    have hne : c ≠ T.counter := fun heq => by simp [heq, hs.counter hcnt] at hc
    exact (h.spawn hs hcnt).setEax ((spawn_life hne).trans hc) _
  | @kill pid b hp => exact h.kill hp b.exitCode
  | killMissing _ => exact h
  | waitMissing _ => exact h.setEax hc _
  | waitOther _ _ => exact h.setEax hc _
  | waitReap hp _ _ hne =>
    refine h.reap.setEax ?_ _
    simpa [Table.reap, Ne.symm hne] using hc
  | @waitBlock pid b hp hpar _ =>
    exact h.upd hc rfl (fun hb => absurd rfl hb.1) (fun hw => absurd hw hnot)
      fun _ => .inr ⟨⟨b, hp, hpar⟩, (hs.fresh pid (.inl ⟨b, hp⟩)).2⟩
  | other v => exact h.setEax hc _
  | otherSilent => exact h
  | getpid => exact h.setEax hc _

theorem resched (h : T.WaitFields) (hr : Resched T T') : T'.WaitFields := by
  cases hr with
  | none => exact h.setCurrent _
  | @take a l ha hable =>
    refine (h.upd ha l.started_parent (fun _ => ?_) (fun hw => ?_) fun _ => ?_).setCurrent _
    · rw [Life.started_waitingFor]
      exact h.able a l ha hable
    · exact absurd hable (h.reader a l hw ha).1
    · exact .inl l.started_waitingFor
  | takeRaw _ _ => exact h.setCurrent _

theorem enter (h : T.WaitFields) (hw : T.waiting = some w) (hl : T.life w = some l) :
    ({ T.upd w { l with state := .ready } with waiting := none } : Table).WaitFields := by
  have hzero := (h.reader w l hw hl).2
  -- With the slot already empty the update is an ordinary one.
  have hempty : ({ T with waiting := none } : Table).WaitFields :=
    ⟨h.able, by simp, by simp, h.child, h.born⟩
  exact hempty.upd (l := l) hl rfl (fun _ => hzero) (fun hno => by cases hno) fun _ => .inl rfl

theorem step (h : T.WaitFields) (hs : T.Sound) (hrun : T.Running) (hst : Step T x T') :
    T'.WaitFields := by
  cases hst with
  | @call c l eax f T₁ l₁ hc hl hb _ _ =>
    have hable := hrun.able hc hl
    exact body (l := { l with eax := eax }) (h.setEax hl eax) (hs.upd hl) (by simp) hable hb
  | @yield c l eax f T₁ l₁ _ hc hl hb _ _ hr =>
    have hable := hrun.able hc hl
    exact (body (l := { l with eax := eax }) (h.setEax hl eax) (hs.upd hl) (by simp) hable hb).resched hr
  | fault _ hl hr =>
    exact (((h.setEax hl _).die (hs.upd hl)).notify ((hs.upd hl).die)).resched hr
  | enterNone _ => exact h
  | enter hw hl => exact h.enter hw hl
  | key => exact h
  | tickIdle _ hr => exact h.resched hr
  | tick _ hl hr => exact (h.setEax hl _).resched hr
  | tickEmpty _ => exact h

end WaitFields

end Kaku.Table

/-! ## Runs of the kernel -/

namespace Kaku.Kernel

/-- What every state reached from boot satisfies, whatever the events. -/
structure Inv (k : Kernel) : Prop where
  wf : k.Wf
  wait : k.table.WaitFields

variable {k k' : Kernel} {e : Event} {es : List Event} {C : Kernel → Event → Prop}

theorem Inv.boot {genkan : Image} (h : boot genkan = .ok k) : k.Inv := by
  obtain ⟨hwf, htab⟩ := boot_wf h
  have hempty : init.table.WaitFields := by
    refine ⟨?_, ?_, ?_, ?_, ?_⟩ <;> simp [table, init]
  have hsound : init.table.Sound := ⟨by simp [table, init], by simp [table, init], by
    simp [table, init]⟩
  refine ⟨hwf, ?_⟩
  rw [htab]
  exact hempty.spawn hsound (by decide)

theorem Inv.step (hk : k.Inv) (h : k.step e = .ok k') :
    k'.Inv ∧ Table.Step k.table e.act k'.table := by
  obtain ⟨hstep, hwf⟩ := step_refines hk.wf h
  exact ⟨⟨hwf, hk.wait.step hk.wf.sound hk.wf.running hstep⟩, hstep⟩

theorem Inv.run (hk : k.Inv) (h : Run (Guarded C Kernel.step) k es k') : k'.Inv :=
  h.invariant (fun _ _ _ hst hs => (hs.step hst.2).1) hk

/-- A run from boot that ends in a state with the property `p`, by evaluation. -/
theorem exists_run_of_boot (C : Kernel → Event → Prop) [∀ k e, Decidable (C k e)]
    (genkan : Image) (es : List Event) (p : Kernel → Bool)
    (h : (boot genkan).toOption.any (fun k => (execAll C Kernel.step k es).any p) = true) :
    ∃ k₀ k, Kernel.boot genkan = .ok k₀ ∧ Run (Guarded C Kernel.step) k₀ es k ∧ p k = true := by
  obtain ⟨k₀, hboot, hexec⟩ := toOption_any.1 h
  obtain ⟨k, hrun, hp⟩ := exists_run_of_execAll hexec
  exact ⟨k₀, k, hboot, hrun, hp⟩

/-- The process is BLOCKED and its `waiting_for` names the pid. -/
def waitsFor (k : Kernel) (a : ProcPtr) (pid : UInt32) : Bool :=
  (k.heap a).any fun p => p.procState == .blocked && p.waitingFor == pid

/-! ## Small programs, for concrete runs -/

/-- A program in a fully mapped address space, without arguments. -/
def bareImage : Image where
  entry := 0x1000
  space := { mapped := fun _ => true, byte := fun _ => 0 }
  argv := []
  env := []

/-- A system call with one argument. -/
def trap (num arg : UInt32) : Event := .syscall { eax := num, ebx := arg } {}

/-- `SYS_EXEC` of a program that is there. -/
def trapExec : Event := .syscall { eax := sysExec } { image := some bareImage }

def tick : Event := .timer {}

end Kaku.Kernel
