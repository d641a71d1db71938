-- SUMMARY: A process that has died stays dead, and no kernel variable names a destroyed one, as long as nobody kills the process that waits for standard input.
import Kaku.Proc.Waiting

/-!
# Death is final

`stdin_flush` makes whichever process is registered in `__waiting_stdin` READY,
without looking at its state. What keeps it from reviving a dead process is that
the registered reader is BLOCKED. Every event keeps it so except a `SYS_KILL` of
the reader itself, which leaves a ZOMBIE registered.
-/

namespace Kaku.Table

variable {T T' T₁ : Table} {a b c w : UInt32} {l l' : Life} {f : Call} {x : Act}

/-! ## The registered reader -/

/-- The process registered for standard input is there and blocked. -/
def ReaderBlocked (T : Table) : Prop :=
  ∀ a, T.waiting = some a → ∃ l, T.life a = some l ∧ l.state = .blocked

namespace ReaderBlocked

theorem upd (h : T.ReaderBlocked) (hb : T.life b = some l)
    (hkeep : T.waiting = some b → l.state = .blocked → l'.state = .blocked) :
    (T.upd b l').ReaderBlocked := by
  intro a ha
  obtain ⟨m, hm, hblocked⟩ := h a ha
  by_cases hab : a = b
  · subst hab
    rw [hb, Option.some.injEq] at hm
    subst hm
    exact ⟨l', by simp, hkeep ha hblocked⟩
  · exact ⟨m, by simpa [hab] using hm, hblocked⟩

/-- Another process than the reader changes. -/
theorem upd_other (h : T.ReaderBlocked) (hb : T.life b = some l) (hne : l.state ≠ .blocked) :
    (T.upd b l').ReaderBlocked :=
  h.upd hb fun _ hblocked => absurd hblocked hne

theorem setCurrent (h : T.ReaderBlocked) (cur : Option UInt32) :
    ({ T with current := cur } : Table).ReaderBlocked := h

theorem notify (h : T.ReaderBlocked) (hw : T.WaitFields) (hs : T.Sound) :
    (T.notify c).ReaderBlocked := by
  intro a ha
  rw [notify_waiting] at ha
  obtain ⟨l, hl, hblocked⟩ := h a ha
  rcases notify_life (T := T) (c := c) a with hsame | ⟨m, p, hm, -, hp, -, hwait, -⟩
  · exact ⟨l, hsame.trans hl, hblocked⟩
  · -- The reader waits for no child, so this cannot be its child's death.
    rw [hl, Option.some.injEq] at hp
    subst hp
    have hzero := (hw.reader a l ha hl).2
    rw [hwait] at hzero
    exact absurd hzero (hs.fresh c (.inl ⟨m, hm⟩)).1

theorem die (h : T.ReaderBlocked) (hw : T.WaitFields) (hs : T.Sound) (hl : T.life c = some l)
    (hne : l.state ≠ .blocked) {code : UInt32} : (T.die c code).ReaderBlocked := by
  rw [die_eq hl]
  exact (h.upd_other hl hne).notify (hw.kill hl code) (hs.upd hl)

theorem reap (h : T.ReaderBlocked) (hb : T.life b = some l) (hz : l.state = .zombie) :
    (T.reap b).ReaderBlocked := by
  intro a ha
  obtain ⟨m, hm, hblocked⟩ := h a ha
  have hab : a ≠ b := by
    rintro rfl
    rw [hb, Option.some.injEq] at hm
    rw [← hm, hz] at hblocked
    cases hblocked
  exact ⟨m, by simpa [Table.reap, hab] using hm, hblocked⟩

theorem spawn (h : T.ReaderBlocked) (hs : T.Sound) (hc : T.counter ≠ 0) :
    T.spawn.ReaderBlocked := by
  intro a ha
  obtain ⟨l, hl, hblocked⟩ := h a ha
  have hne : a ≠ T.counter := fun heq => by simp [heq, hs.counter hc] at hl
  exact ⟨l, (spawn_life hne).trans hl, hblocked⟩

theorem body (h : T.ReaderBlocked) (hw : T.WaitFields) (hs : T.Sound) (hc : T.life c = some l)
    (hable : l.Able) (hkill : ∀ p, f = .kill p → T.waiting ≠ some p) (hb : Body T c l f T₁) :
    T₁.ReaderBlocked := by
  cases hb with
  | read =>
    intro a ha
    simp only [Option.some.injEq] at ha
    subst ha
    exact ⟨{ l with state := .blocked }, by simp, rfl⟩
  | exit code => exact h.die hw hs hc hable.1
  | execMissing => exact h.upd_other hc hable.1
  | exec hcnt =>
    have hne : c ≠ T.counter := fun heq => by simp [heq, hs.counter hcnt] at hc
    exact (h.spawn hs hcnt).upd_other ((spawn_life hne).trans hc) hable.1
  | @kill pid b hp => exact h.upd hp fun hreg => absurd hreg (hkill pid rfl)
  | killMissing _ => exact h
  | waitMissing _ => exact h.upd_other hc hable.1
  | waitOther _ _ => exact h.upd_other hc hable.1
  | waitReap hp _ hz hne =>
    refine (h.reap hp hz).upd_other (l := l) ?_ hable.1
    simpa [Table.reap, Ne.symm hne] using hc
  | waitBlock _ _ _ => exact h.upd_other hc hable.1
  | other v => exact h.upd_other hc hable.1
  | otherSilent => exact h
  | getpid => exact h.upd_other hc hable.1

theorem resched (h : T.ReaderBlocked) (hr : Resched T T') : T'.ReaderBlocked := by
  cases hr with
  | none => exact h.setCurrent _
  | take ha hable => exact (h.upd_other ha hable.1).setCurrent _
  | takeRaw _ _ => exact h.setCurrent _

end ReaderBlocked

theorem ReaderBlocked.step (h : T.ReaderBlocked) (hw : T.WaitFields) (hs : T.Sound)
    (hrun : T.Running) (hkill : ∀ eax p, x = .call eax (.kill p) → T.waiting ≠ some p)
    (hst : Step T x T') : T'.ReaderBlocked := by
  have hcall : ∀ {c l eax f T₁}, T.current = some c → T.life c = some l → x = .call eax f →
      Body (T.upd c { l with eax := eax }) c { l with eax := eax } f T₁ → T₁.ReaderBlocked := by
    intro c l eax f T₁ hc hl hx hb
    have hable := hrun.able hc hl
    refine (h.upd_other hl hable.1).body (l := { l with eax := eax }) (hw.setEax hl eax)
      (hs.upd hl) (upd_self ..) hable (fun p hp => ?_) hb
    exact hkill eax p (by rw [hx, hp])
  cases hst with
  | call hc hl hb _ _ => exact hcall hc hl rfl hb
  | yield hc hl hb _ _ hr => exact (hcall hc hl rfl hb).resched hr
  | @fault c l eax _ hc hl hr =>
    have hable := hrun.able hc hl
    have hw' := hw.setEax hl eax
    have hs' : (T.upd c { l with eax := eax }).Sound := hs.upd hl
    have hdie : ((T.upd c { l with eax := eax }).die c 139).ReaderBlocked :=
      (h.upd_other hl hable.1).die hw' hs' (upd_self ..) hable.1
    exact (hdie.notify (hw'.die hs') hs'.die).resched hr
  | enterNone _ => exact h
  | enter _ _ =>
    intro a ha
    cases ha
  | key => exact h
  | tickIdle _ hr => exact h.resched hr
  | @tick c l eax _ hc hl hr =>
    have hable := hrun.able hc hl
    exact (h.upd_other hl hable.1).resched hr
  | tickEmpty _ => exact h

/-! ## States that only Enter ends -/

/-- Processes that are neither dispatched nor woken by the death of a child. -/
structure Lasting (S : Life → Prop) : Prop where
  idle : ∀ l, S l → ¬ l.Able
  killed : ∀ l, S l → S { l with state := .zombie }
  unawaited : ∀ l, S l → l.state = .blocked → l.waitingFor = 0

/-- In such a state, or destroyed already. -/
def Stays (S : Life → Prop) (T : Table) (a : UInt32) : Prop :=
  (∃ l, T.life a = some l ∧ S l) ∨ a ∈ T.destroyed

namespace Stays

variable {S : Life → Prop}

theorem upd (h : T.Stays S a) (hb : T.life b = some l) (hkeep : S l → S l') :
    (T.upd b l').Stays S a := by
  rcases h with ⟨m, hm, hS⟩ | hd
  · left
    by_cases hab : a = b
    · subst hab
      rw [hb, Option.some.injEq] at hm
      subst hm
      exact ⟨l', by simp, hkeep hS⟩
    · exact ⟨m, by simpa [hab] using hm, hS⟩
  · exact .inr hd

/-- Another process changes. -/
theorem upd_able (h : T.Stays S a) (hS : Lasting S) (hb : T.life b = some l) (hable : l.Able) :
    (T.upd b l').Stays S a :=
  h.upd hb fun hs => absurd hable (hS.idle l hs)

theorem setCurrent (h : T.Stays S a) (cur : Option UInt32) :
    ({ T with current := cur } : Table).Stays S a := h

theorem setWaiting (h : T.Stays S a) (w : Option UInt32) :
    ({ T with waiting := w } : Table).Stays S a := h

theorem notify (h : T.Stays S a) (hS : Lasting S) (hs : T.Sound) : (T.notify c).Stays S a := by
  rcases h with ⟨l, hl, hl'⟩ | hd
  · left
    rcases notify_life (T := T) (c := c) a with hsame | ⟨m, p, hm, -, hp, hblocked, hwait, -⟩
    · exact ⟨l, hsame.trans hl, hl'⟩
    · -- Nobody with this state waits for a child.
      rw [hl, Option.some.injEq] at hp
      subst hp
      have hzero := hS.unawaited l hl' hblocked
      rw [hwait] at hzero
      exact absurd hzero (hs.fresh c (.inl ⟨m, hm⟩)).1
  · exact .inr (by rwa [notify_destroyed])

theorem die (h : T.Stays S a) (hS : Lasting S) (hs : T.Sound) (hl : T.life c = some l)
    (hable : l.Able) {code : UInt32} : (T.die c code).Stays S a := by
  rw [die_eq hl]
  exact (h.upd_able hS hl hable).notify hS (hs.upd hl)

theorem reap (h : T.Stays S a) : (T.reap b).Stays S a := by
  by_cases hab : a = b
  · right
    simp [Table.reap, hab]
  · rcases h with ⟨l, hl, hS⟩ | hd
    · exact .inl ⟨l, by simpa [Table.reap, hab] using hl, hS⟩
    · exact .inr (by simp [Table.reap, hd])

theorem spawn (h : T.Stays S a) (hs : T.Sound) (hc : T.counter ≠ 0) : T.spawn.Stays S a := by
  rcases h with ⟨l, hl, hS⟩ | hd
  · have hne : a ≠ T.counter := fun heq => by simp [heq, hs.counter hc] at hl
    exact .inl ⟨l, (spawn_life hne).trans hl, hS⟩
  · exact .inr hd

theorem body (h : T.Stays S a) (hS : Lasting S) (hs : T.Sound) (hc : T.life c = some l)
    (hable : l.Able) (hb : Body T c l f T₁) : T₁.Stays S a := by
  cases hb with
  | read => exact (h.upd_able hS hc hable).setWaiting _
  | exit code => exact h.die hS hs hc hable
  | execMissing => exact h.upd_able hS hc hable
  | exec hcnt =>
    have hne : c ≠ T.counter := fun heq => by simp [heq, hs.counter hcnt] at hc
    exact (h.spawn hs hcnt).upd_able hS ((spawn_life hne).trans hc) hable
  | kill hp => exact h.upd hp (hS.killed _)
  | killMissing _ => exact h
  | waitMissing _ => exact h.upd_able hS hc hable
  | waitOther _ _ => exact h.upd_able hS hc hable
  | waitReap _ _ _ hne =>
    refine h.reap.upd_able hS (l := l) ?_ hable
    simpa [Table.reap, Ne.symm hne] using hc
  | waitBlock _ _ _ => exact h.upd_able hS hc hable
  | other v => exact h.upd_able hS hc hable
  | otherSilent => exact h
  | getpid => exact h.upd_able hS hc hable

theorem resched (h : T.Stays S a) (hS : Lasting S) (hr : Resched T T') : T'.Stays S a := by
  cases hr with
  | none => exact h.setCurrent _
  | take hb hable => exact (h.upd_able hS hb hable).setCurrent _
  | takeRaw _ _ => exact h.setCurrent _

/-- Only an Enter that finds the process registered ends such a state. -/
theorem step (h : T.Stays S a) (hS : Lasting S) (hs : T.Sound) (hrun : T.Running)
    (henter : x = .enter → T.waiting ≠ some a) (hst : Step T x T') : T'.Stays S a := by
  have hcall : ∀ {c l eax f T₁}, T.current = some c → T.life c = some l →
      Body (T.upd c { l with eax := eax }) c { l with eax := eax } f T₁ → T₁.Stays S a := by
    intro c l eax f T₁ hc hl hb
    have hable := hrun.able hc hl
    have h' : (T.upd c { l with eax := eax }).Stays S a := h.upd_able hS hl hable
    exact h'.body hS (l := { l with eax := eax }) (hs.upd hl) (upd_self ..) hable hb
  cases hst with
  | call hc hl hb _ _ => exact hcall hc hl hb
  | yield hc hl hb _ _ hres => exact (hcall hc hl hb).resched hS hres
  | @fault c l eax _ hc hl hres =>
    have hable := hrun.able hc hl
    have hcaller : (T.upd c { l with eax := eax }).life c = some { l with eax := eax } := by simp
    have hpushed : (T.upd c { l with eax := eax }).Stays S a := h.upd_able hS hl hable
    have hdied : ((T.upd c { l with eax := eax }).die c 139).Stays S a :=
      hpushed.die hS (hs.upd hl) hcaller hable
    exact (hdied.notify hS (hs.upd hl).die).resched hS hres
  | enterNone _ => exact h
  | @enter w l hw hl =>
    have hne : a ≠ w := by
      rintro rfl
      exact henter rfl hw
    rcases h with ⟨m, hm, hm'⟩ | hd
    · exact .inl ⟨m, by simpa [hne] using hm, hm'⟩
    · exact .inr hd
  | key => exact h
  | tickIdle _ hres => exact h.resched hS hres
  | tick hc hl hres => exact (h.upd_able hS hl (hrun.able hc hl)).resched hS hres
  | tickEmpty _ => exact h

end Stays

/-! ## Dead processes -/

/-- A zombie, or destroyed already. -/
def Dead (T : Table) (a : UInt32) : Prop :=
  (∃ l, T.life a = some l ∧ l.state = .zombie) ∨ a ∈ T.destroyed

theorem lasting_zombie : Lasting fun l => l.state = .zombie where
  idle _ hz hable := hable.2 hz
  killed _ _ := rfl
  unawaited l hz hblocked := by
    rw [hz] at hblocked
    cases hblocked

/-- Nothing revives a process while the registered reader is blocked. -/
theorem Dead.step (h : T.Dead a) (hs : T.Sound) (hrun : T.Running) (hr : T.ReaderBlocked)
    (hst : Step T x T') : T'.Dead a := by
  refine Stays.step h lasting_zombie hs hrun (fun _ hw => ?_) hst
  obtain ⟨l, hl, hblocked⟩ := hr a hw
  rcases h with ⟨m, hm, hz⟩ | hd
  · rw [hl, Option.some.injEq] at hm
    rw [← hm, hblocked] at hz
    cases hz
  · rw [hs.gone a hd] at hl
    cases hl

end Kaku.Table

/-! ## Runs of the kernel -/

namespace Kaku

namespace Kernel

variable {genkan : Image} {k₀ k k' : Kernel} {es fs : List Event} {e : Event} {a : ProcPtr}

/-- `SYS_KILL` does not name the process registered in `__waiting_stdin`. -/
def SparesReader (k : Kernel) (e : Event) : Prop :=
  e.kills = none ∨ e.kills ≠ k.waitingStdin.map StdinWaitingProc.p

instance (k : Kernel) (e : Event) : Decidable (SparesReader k e) :=
  inferInstanceAs (Decidable (_ ∨ _))

def Zombie (k : Kernel) (a : ProcPtr) : Prop :=
  ∃ p, k.heap a = some p ∧ p.procState = .zombie

/-- A kernel variable that gets dereferenced holds the pointer. -/
def Names (k : Kernel) (a : ProcPtr) : Prop :=
  a ∈ k.procs ∨ k.currentProc = some a ∨ k.waitingStdin.map StdinWaitingProc.p = some a

/-- What a death, or destruction, of `a` in the state `k` means for a later state. -/
structure FinalAt (k k' : Kernel) (a : ProcPtr) : Prop where
  dead : k.Zombie a → k'.Zombie a ∨ a ∈ k'.destroyed
  dispatched : k.Zombie a → k'.currentProc ≠ some a
  picked : k.Zombie a → ∀ r, k'.pickNextReadyProc ≠ .ok (r, some a)
  unnamed : a ∈ k.destroyed → a ∈ k'.destroyed ∧ ¬ k'.Names a

theorem zombie_dead (h : k.Zombie a) : k.table.Dead a := by
  obtain ⟨p, hp, hz⟩ := h
  exact .inl ⟨p.life, table_life hp, hz⟩

theorem dead_zombie (h : k.table.Dead a) : k.Zombie a ∨ a ∈ k.destroyed := by
  rcases h with ⟨l, hl, hz⟩ | hd
  · simp only [table, Option.map_eq_some_iff] at hl
    obtain ⟨p, hp, rfl⟩ := hl
    exact .inl ⟨p, hp, hz⟩
  · exact .inr hd

theorem Wf.destroyed_heap (hk : k.Wf) (h : a ∈ k.destroyed) : k.heap a = none := by
  have := hk.sound.gone a h
  simpa [table] using this

/-- A dead process is neither running nor dispatched next. -/
theorem dead_not_able (hk : k.Wf) (h : k.table.Dead a) {p : Proc} (hp : k.heap a = some p) :
    ¬ p.life.Able := by
  intro hable
  rcases dead_zombie h with ⟨q, hq, hz⟩ | hd
  · rw [hp, Option.some.injEq] at hq
    exact hable.2 (hq ▸ hz)
  · simp [hk.destroyed_heap hd] at hp

/-- The invariant of the runs that spare the reader. -/
structure Sparing (k : Kernel) : Prop where
  inv : k.Inv
  reader : k.table.ReaderBlocked

theorem Sparing.boot (h : boot genkan = .ok k) : k.Sparing := by
  refine ⟨.boot h, ?_⟩
  rw [(boot_wf h).2]
  intro w hw
  cases hw

theorem Sparing.step (hk : k.Sparing) (hC : SparesReader k e) (h : k.step e = .ok k') :
    k'.Sparing := by
  obtain ⟨hinv, hstep⟩ := hk.inv.step h
  refine ⟨hinv, hk.reader.step hk.inv.wait hk.inv.wf.sound hk.inv.wf.running ?_ hstep⟩
  intro eax p hact
  have hp := Event.act_eq_kill.1 ⟨eax, hact⟩
  rcases hC with hnone | hne
  · simp [hnone] at hp
  · exact fun hw => hne (hp.trans hw.symm)

theorem Sparing.run (hk : k.Sparing) (h : Run (Guarded SparesReader Kernel.step) k es k') :
    k'.Sparing :=
  h.invariant (fun _ _ _ hst hs => hs.step hst.1 hst.2) hk

theorem Sparing.dead (hk : k.Sparing) (h : Run (Guarded SparesReader Kernel.step) k es k')
    (hd : k.table.Dead a) : k'.table.Dead a :=
  h.invariant_of (I := fun s => s.table.Dead a) (J := Sparing)
    (fun _ _ _ hst hs => hs.step hst.1 hst.2)
    (fun _ _ _ hst hs hdead =>
      hdead.step hs.inv.wf.sound hs.inv.wf.running hs.reader (hs.inv.step hst.2).2)
    hk hd

theorem Sparing.unnamed (hk : k.Sparing) (hd : a ∈ k.destroyed) : ¬ k.Names a := by
  have hgone := hk.inv.wf.destroyed_heap hd
  rintro (hmem | hcur | hwait)
  · obtain ⟨p, hp⟩ := (hk.inv.wf.shape.mem_procs a).1 hmem
    simp [hgone] at hp
  · obtain ⟨p, hp, -⟩ := hk.inv.wf.current hcur
    simp [hgone] at hp
  · obtain ⟨l, hl, -⟩ := hk.reader a hwait
    rw [table_life_none hgone] at hl
    cases hl

theorem Sparing.finalAt (hk : k.Sparing) (h : Run (Guarded SparesReader Kernel.step) k es k') :
    FinalAt k k' a := by
  have hk' := hk.run h
  refine ⟨fun hz => ?_, fun hz hcur => ?_, fun hz r hpick => ?_, fun hd => ?_⟩
  · exact dead_zombie (hk.dead h (zombie_dead hz))
  · obtain ⟨p, hp, hable⟩ := hk'.inv.wf.current hcur
    exact dead_not_able hk'.inv.wf (hk.dead h (zombie_dead hz)) hp hable
  · obtain ⟨p, hp, hable⟩ := (pickNextReadyProc_spec hpick).2 a rfl
    exact dead_not_able hk'.inv.wf (hk.dead h (zombie_dead hz)) hp hable
  · have hd' : a ∈ k'.destroyed :=
      h.invariant_of (I := fun s => a ∈ s.destroyed) (J := Inv) (fun _ _ _ hst hs => (hs.step hst.2).1)
        (fun _ _ _ hst hs hmem => (hs.step hst.2).2.destroyed hmem) hk.inv hd
    exact ⟨hd', hk'.unnamed hd'⟩

/-- Killing the registered reader leaves it registered. -/
theorem killed_registered (hk : k.Sparing) (hC : ¬ SparesReader k e) (h : k.step e = .ok k') :
    ∃ w, k'.Zombie w ∧ k'.table.waiting = some w := by
  obtain ⟨w, eax, hact, hwait⟩ :
      ∃ w eax, e.act = .call eax (.kill w) ∧ k.table.waiting = some w := by
    rw [SparesReader, not_or, not_not] at hC
    obtain ⟨w, hw⟩ := Option.ne_none_iff_exists'.1 hC.1
    obtain ⟨eax, hact⟩ := Event.act_eq_kill.2 hw
    exact ⟨w, eax, hact, hC.2.symm.trans hw⟩
  obtain ⟨l, hl, hblocked⟩ := hk.reader w hwait
  refine ⟨w, ?_⟩
  have hresult : ∀ {T₁ : Table} {c m eax}, k.table.life c = some m → m.Able →
      Table.Body (k.table.upd c { m with eax := eax }) c { m with eax := eax } (.kill w) T₁ →
      T₁.waiting = some w ∧ (∃ l', T₁.life w = some l' ∧ l'.state = .zombie) ∧
        ∀ m', T₁.life c = some m' → m'.Able := by
    intro T₁ c m eax hm hable hb
    -- The reader is blocked, so it is not the process making the call.
    have hwc : w ≠ c := by
      rintro rfl
      rw [hl, Option.some.injEq] at hm
      exact hable.1 (hm ▸ hblocked)
    cases hb with
    | kill hp =>
      refine ⟨hwait, ⟨_, Table.upd_self .., rfl⟩, fun m' hm' => ?_⟩
      simp only [Table.upd_life, if_neg (Ne.symm hwc), if_true, Option.some.injEq] at hm'
      exact hm' ▸ hable
    | killMissing hnone => simp [hwc, hl] at hnone
  have hzombie : k'.table.waiting = some w ∧ ∃ l', k'.table.life w = some l' ∧ l'.state = .zombie := by
    have hstep := (hk.inv.step h).2
    rw [hact] at hstep
    cases hstep with
    | call hc hm hb _ _ =>
      obtain ⟨hw, hz, -⟩ := hresult hm (hk.inv.wf.running.able hc hm) hb
      exact ⟨hw, hz⟩
    | yield hc hm hb hm₁ hno _ =>
      obtain ⟨-, -, hgo⟩ := hresult hm (hk.inv.wf.running.able hc hm) hb
      exact absurd (hgo _ hm₁) hno
  obtain ⟨hw, l', hl', hz⟩ := hzombie
  simp only [table, Option.map_eq_some_iff] at hl'
  obtain ⟨p, hp, rfl⟩ := hl'
  exact ⟨⟨p, hp, hz⟩, hw⟩

/-- Enter makes the registered process READY, whatever its state. -/
theorem enter_wakes {w : ProcPtr} (hw : k.table.waiting = some w) {p : Proc}
    (hp : k.heap w = some p) :
    ∃ k' p', k.step (.key 0x1C) = .ok k' ∧ k'.heap w = some p' ∧ p'.procState = .ready := by
  simp only [table, Option.map_eq_some_iff] at hw
  obtain ⟨s, hs, rfl⟩ := hw
  have hflush : k.step (.key 0x1C) = k.stdinFlush := rfl
  simp only [hflush, stdinFlush, hs, schedulerWakeStdin, deref_eq_ok.2 hp, ok_bind]
  exact ⟨_, { p with
    stdinKernelBuf := true
    stdinKernelBufLen := k.stdinBufLen % 256
    procState := .ready }, rfl, by simp, rfl⟩

/-- In every run from boot in which no `SYS_KILL` names the registered reader,
dead processes stay dead and destroyed ones are forgotten; and a `SYS_KILL` that
does name the reader is one key press away from reviving it. -/
theorem zombie_final (hboot : boot genkan = .ok k₀)
    (hrun : Run (Guarded SparesReader step) k₀ es k)
    (hlater : Run (Guarded SparesReader step) k fs k') :
    (∀ a, FinalAt k k' a) ∧
      ∀ e j, k'.step e = .ok j → ¬ SparesReader k' e →
        ∃ w j', j.Zombie w ∧ j.step (.key 0x1C) = .ok j' ∧ ¬ FinalAt j j' w := by
  have hk : k.Sparing := (Sparing.boot hboot).run hrun
  refine ⟨fun a => hk.finalAt hlater, fun e j hstep hC => ?_⟩
  have hk' := hk.run hlater
  obtain ⟨w, ⟨p, hp, hz⟩, hwait⟩ := killed_registered hk' hC hstep
  obtain ⟨j', p', henter, hp', hready⟩ := enter_wakes hwait hp
  refine ⟨w, j', ⟨p, hp, hz⟩, henter, fun hfinal => ?_⟩
  have hwf' := ((hk'.inv.step hstep).1.step henter).1.wf
  rcases hfinal.dead ⟨p, hp, hz⟩ with ⟨q, hq, hz'⟩ | hd
  · rw [hp', Option.some.injEq] at hq
    rw [← hq, hready] at hz'
    cases hz'
  · simp [hwf'.destroyed_heap hd] at hp'

/-- The shell runs a child, which asks for a line; the shell is back in user mode. -/
def readerBlockedRun : List Event := [tick, trapExec, tick, trap sysRead 0]

theorem zombie_final_reaped :
    ∃ k₀ k k', boot bareImage = .ok k₀ ∧
      Run (Guarded SparesReader step) k₀ [tick, trapExec, tick, trap sysExit 7] k ∧
      Run (Guarded SparesReader step) k [trap sysWaitpid 2] k' ∧
      k.Zombie 2 ∧ 2 ∈ k'.destroyed ∧ FinalAt k k' 2 := by
  obtain ⟨k₀, k, hboot, hrun, hp⟩ := exists_run_of_boot SparesReader bareImage
    [tick, trapExec, tick, trap sysExit 7]
    (fun k => decide ((k.heap 2).map Proc.procState = some .zombie) &&
      (execAll SparesReader step k [trap sysWaitpid 2]).any fun k' : Kernel => decide (2 ∈ k'.destroyed))
    (by decide)
  simp only [Bool.and_eq_true, decide_eq_true_eq, Option.map_eq_some_iff] at hp
  obtain ⟨k', hlater, hd⟩ := exists_run_of_execAll hp.2
  exact ⟨k₀, k, k', hboot, hrun, hlater, hp.1, of_decide_eq_true hd,
    (zombie_final hboot hrun hlater).1 2⟩

/-- The shell kills its child while the child waits for a line, and Enter makes
the ZOMBIE READY again. -/
theorem zombie_revived :
    ∃ k₀ k k', boot bareImage = .ok k₀ ∧
      Run (Guarded (fun _ _ => True) step) k₀ (readerBlockedRun ++ [trap sysKill 2]) k ∧
      Run (Guarded (fun _ _ => True) step) k [.key 0x1C] k' ∧
      k.Zombie 2 ∧ (∃ p, k'.heap 2 = some p ∧ p.procState = .ready) ∧ ¬ FinalAt k k' 2 := by
  obtain ⟨k₀, k, hboot, hrun, hp⟩ := exists_run_of_boot (fun _ _ => True)
    bareImage (readerBlockedRun ++ [trap sysKill 2])
    (fun k => decide ((k.heap 2).map Proc.procState = some .zombie) &&
      (execAll (fun _ _ => True) step k [.key 0x1C]).any fun k' : Kernel =>
        decide ((k'.heap 2).map Proc.procState = some .ready ∧ 2 ∉ k'.destroyed))
    (by decide)
  simp only [Bool.and_eq_true, decide_eq_true_eq] at hp
  have hzombie : k.Zombie 2 := Option.map_eq_some_iff.1 hp.1
  obtain ⟨k', hlater, hd⟩ := exists_run_of_execAll hp.2
  obtain ⟨hready, hkept⟩ := of_decide_eq_true hd
  obtain ⟨p, hheap, hstate⟩ := Option.map_eq_some_iff.1 hready
  refine ⟨k₀, k, k', hboot, hrun, hlater, hzombie, ⟨p, hheap, hstate⟩, fun hfinal => ?_⟩
  rcases hfinal.dead hzombie with ⟨q, hq, hz⟩ | hdestroyed
  · rw [hheap, Option.some.injEq] at hq
    rw [← hq, hstate] at hz
    cases hz
  · exact hkept hdestroyed

end Kernel

end Kaku
