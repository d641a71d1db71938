-- SUMMARY: When every blocked process has a waker, and which system calls take one away.
import Kaku.Proc.Waiting

/-!
# Wakers

A blocked process is woken by Enter, if it is the one registered in
`__waiting_stdin`, or by the death of the child it waits for. Two system calls
can leave a blocked process with neither: a `SYS_READ` that overwrites the slot
of a blocked reader, and a `SYS_KILL`, which notifies nobody.
-/

namespace Kaku.Table

variable {T T' T₁ : Table} {a b c w : UInt32} {l l' m : Life} {f : Call} {x : Act}

/-- Every blocked process is the registered reader or waits for a live process. -/
def Watched (T : Table) : Prop :=
  ∀ a l, T.life a = some l → l.state = .blocked →
    T.waiting = some a ∨ ∃ c, T.life l.waitingFor = some c ∧ c.state ≠ .zombie

/-- The call takes no blocked process's waker away. -/
def Call.Keeps (T : Table) : Call → Prop
  | .read => ∀ w l, T.waiting = some w → T.life w = some l → l.state ≠ .blocked
  | .kill p => ∀ b, T.life p = some b → ∀ a l, a ≠ p → T.life a = some l →
      l.state = .blocked → l.waitingFor ≠ p
  | _ => True

/-- Only states, wait fields and the registered reader matter. -/
theorem Call.Keeps.congr (hreg : T'.waiting = T.waiting)
    (hback : ∀ a m, T'.life a = some m →
      ∃ m₀, T.life a = some m₀ ∧ m.state = m₀.state ∧ m.waitingFor = m₀.waitingFor)
    (h : f.Keeps T) : f.Keeps T' := by
  cases f with
  | read =>
    intro w m hw hm
    obtain ⟨m₀, hm₀, hstate, -⟩ := hback w m hm
    rw [hstate]
    exact h w m₀ (hreg ▸ hw) hm₀
  | kill p =>
    intro b hb a m hne hm hblocked
    obtain ⟨b₀, hb₀, -, -⟩ := hback p b hb
    obtain ⟨m₀, hm₀, hstate, hwait⟩ := hback a m hm
    rw [hwait]
    exact h b₀ hb₀ a m₀ hne hm₀ (hstate ▸ hblocked)
  | _ => trivial

theorem Call.keeps_setEax {v : UInt32} (hc : T.life c = some l) :
    f.Keeps (T.upd c { l with eax := v }) ↔ f.Keeps T := by
  refine ⟨Call.Keeps.congr rfl fun a m hm => ?_, Call.Keeps.congr rfl fun a m hm => ?_⟩
  · by_cases ha : a = c
    · rw [ha, hc, Option.some.injEq] at hm
      exact ⟨{ l with eax := v }, by simp [ha], by simp [hm], by simp [hm]⟩
    · exact ⟨m, by simpa [ha] using hm, rfl, rfl⟩
  · by_cases ha : a = c
    · rw [ha, upd_self, Option.some.injEq] at hm
      exact ⟨l, ha ▸ hc, by simp [← hm], by simp [← hm]⟩
    · exact ⟨m, by simpa [ha] using hm, rfl, rfl⟩

/-! ## What keeps the wakers -/

namespace Watched

/-- Updating a process that ends up neither dead nor newly blocked. -/
theorem upd (h : T.Watched) (hz : l'.state ≠ .zombie)
    (hself : l'.state = .blocked → T.waiting = some b ∨
      ∃ c, T.life l'.waitingFor = some c ∧ c.state ≠ .zombie) : (T.upd b l').Watched := by
  have hlive : ∀ p, (∃ c, T.life p = some c ∧ c.state ≠ .zombie) →
      ∃ c, (T.upd b l').life p = some c ∧ c.state ≠ .zombie := by
    rintro p ⟨c, hc, hcz⟩
    by_cases hp : p = b
    · exact ⟨l', by simp [hp], hz⟩
    · exact ⟨c, by simpa [hp] using hc, hcz⟩
  intro a m hm hblocked
  by_cases ha : a = b
  · simp only [upd_life, ha, if_true, Option.some.injEq] at hm
    subst hm
    rw [ha]
    exact (hself hblocked).imp_right (hlive _)
  · simp only [upd_life, if_neg ha] at hm
    exact (h a m hm hblocked).imp_right (hlive _)

/-- Updating a process that may be dispatched before and after. -/
theorem upd_able (h : T.Watched) (hable : l'.Able) : (T.upd b l').Watched :=
  h.upd hable.2 fun hblocked => absurd hblocked hable.1

theorem setCurrent (h : T.Watched) (cur : Option UInt32) :
    ({ T with current := cur } : Table).Watched := h

/-- What a notification leaves of a process: the same, or the process is ready. -/
theorem notify_cases (hl : T.life a = some l) :
    ∃ l', (T.notify c).life a = some l' ∧ (l' = l ∨ l'.state = .ready) := by
  rcases notify_life (T := T) (c := c) a with hsame | ⟨-, p, -, -, -, -, -, hready⟩
  · exact ⟨l, hsame.trans hl, .inl rfl⟩
  · exact ⟨_, hready, .inr rfl⟩

theorem notify_blocked (hl : (T.notify c).life a = some l) (hblocked : l.state = .blocked) :
    T.life a = some l := by
  rcases notify_life (T := T) (c := c) a with hsame | ⟨-, p, -, -, -, -, -, hready⟩
  · exact hsame ▸ hl
  · rw [hready, Option.some.injEq] at hl
    rw [← hl] at hblocked
    cases hblocked

theorem notify_live (h : ∃ l, T.life a = some l ∧ l.state ≠ .zombie) :
    ∃ l, (T.notify c).life a = some l ∧ l.state ≠ .zombie := by
  obtain ⟨l, hl, hz⟩ := h
  obtain ⟨l', hl', rfl | hready⟩ := notify_cases (c := c) hl
  · exact ⟨l', hl', hz⟩
  · exact ⟨l', hl', by simp [hready]⟩

theorem notify (h : T.Watched) : (T.notify c).Watched := by
  intro a l hl hblocked
  rw [notify_waiting]
  exact (h a l (notify_blocked hl hblocked) hblocked).imp_right notify_live

/-- A death wakes the one process that may have waited for it: the parent. -/
theorem die (h : T.Watched) (hw : T.WaitFields) (hs : T.Sound) (hl : T.life c = some l) {code : UInt32} :
    (T.die c code).Watched := by
  intro a m hm hblocked
  rw [die_waiting]
  rw [die_eq hl] at hm ⊢
  have hm' := notify_blocked hm hblocked
  have hac : a ≠ c := by
    rintro rfl
    rw [upd_self, Option.some.injEq] at hm'
    rw [← hm'] at hblocked
    cases hblocked
  have hma : T.life a = some m := by simpa [hac] using hm'
  refine (h a m hma hblocked).imp_right ?_
  rintro ⟨d, hd, hdz⟩
  refine notify_live ?_
  have hdc : m.waitingFor ≠ c := by
    intro hwait
    rw [hwait, hl, Option.some.injEq] at hd
    subst hd
    have hne : m.waitingFor ≠ 0 := hwait ▸ (hs.fresh c (.inl ⟨l, hl⟩)).1
    obtain rfl : l.parent = a := hw.child a m l hma hne (hwait ▸ hl)
    have hready := notify_parent (c := c) (l := { l with state := .zombie, exitCode := code })
      (upd_self ..) ((if_neg hac).trans hma) hblocked hwait
    rw [hm, Option.some.injEq] at hready
    rw [hready] at hblocked
    cases hblocked
  exact ⟨d, by simpa [hdc] using hd, hdz⟩

theorem reap (h : T.Watched) (hb : T.life b = some l) (hz : l.state = .zombie) :
    (T.reap b).Watched := by
  intro a m hm hblocked
  by_cases hab : a = b
  · simp [Table.reap, hab] at hm
  simp only [Table.reap, if_neg hab] at hm
  refine (h a m hm hblocked).imp_right ?_
  rintro ⟨d, hd, hdz⟩
  refine ⟨d, ?_, hdz⟩
  have hne : m.waitingFor ≠ b := by
    intro heq
    rw [heq, hb, Option.some.injEq] at hd
    exact hdz (hd ▸ hz)
  simpa [Table.reap, hne] using hd

theorem spawn (h : T.Watched) (hs : T.Sound) (hc : T.counter ≠ 0) : T.spawn.Watched := by
  intro a m hm hblocked
  by_cases ha : a = T.counter
  · simp only [Table.spawn, upd_life, ha, if_true, Option.some.injEq] at hm
    rw [← hm] at hblocked
    cases hblocked
  rw [spawn_life ha] at hm
  refine (h a m hm hblocked).imp_right ?_
  rintro ⟨d, hd, hdz⟩
  refine ⟨d, ?_, hdz⟩
  rw [spawn_life fun heq => by simp [heq, hs.counter hc] at hd]
  exact hd

theorem body (h : T.Watched) (hw : T.WaitFields) (hs : T.Sound) (hc : T.life c = some l)
    (hable : l.Able) (hkeeps : f.Keeps T) (hb : Body T c l f T₁) : T₁.Watched := by
  have hset : ∀ v, (T.upd c { l with eax := v }).Watched := fun v => h.upd_able hable
  cases hb with
  | read =>
    intro a m hm hblocked
    by_cases ha : a = c
    · exact .inl (by simp [ha])
    · have hm' : T.life a = some m := by simpa [ha] using hm
      have hchild := (h a m hm' hblocked).resolve_left fun hreg => hkeeps a m hreg hm' hblocked
      obtain ⟨d, hd, hdz⟩ := hchild
      right
      by_cases hdc : m.waitingFor = c
      · exact ⟨{ l with state := .blocked }, by simp [hdc], by simp⟩
      · exact ⟨d, by simpa [hdc] using hd, hdz⟩
  | exit code => exact h.die hw hs hc
  | execMissing => exact hset _
  | exec hcnt =>
    exact (h.spawn hs hcnt).upd_able hable
  | @kill p b hp =>
    intro a m hm hblocked
    have hap : a ≠ p := by
      rintro rfl
      rw [upd_self, Option.some.injEq] at hm
      rw [← hm] at hblocked
      cases hblocked
    have hm' : T.life a = some m := by simpa [hap] using hm
    refine (h a m hm' hblocked).imp_right ?_
    rintro ⟨d, hd, hdz⟩
    refine ⟨d, ?_, hdz⟩
    have hne : m.waitingFor ≠ p := hkeeps b hp a m hap hm' hblocked
    simpa [hne] using hd
  | killMissing _ => exact h
  | waitMissing _ => exact hset _
  | waitOther _ _ => exact hset _
  | waitReap hp _ hz _ => exact (h.reap hp hz).upd_able hable
  | waitBlock hp _ hz => exact h.upd (by simp) fun _ => .inr ⟨_, hp, hz⟩
  | other v => exact hset _
  | otherSilent => exact h
  | getpid => exact hset _

theorem resched (h : T.Watched) (hr : Resched T T') : T'.Watched := by
  cases hr with
  | none => exact h.setCurrent _
  | take _ hable => exact (h.upd_able (Life.started_able.2 hable)).setCurrent _
  | takeRaw _ _ => exact h.setCurrent _

end Watched

/-- The calls among the actions keep every waker. -/
def Act.Keeps (T : Table) : Act → Prop
  | .call _ f => f.Keeps T
  | _ => True

theorem Watched.step (h : T.Watched) (hw : T.WaitFields) (hs : T.Sound) (hrun : T.Running)
    (hkeeps : x.Keeps T) (hst : Step T x T') : T'.Watched := by
  have hcall : ∀ {c l eax f T₁}, T.current = some c → T.life c = some l → x = .call eax f →
      Body (T.upd c { l with eax := eax }) c { l with eax := eax } f T₁ → T₁.Watched := by
    intro c l eax f T₁ hc hl hx hb
    have hable := hrun.able hc hl
    have hset : (T.upd c { l with eax := eax }).Watched := h.upd_able hable
    have hkeepsf : f.Keeps T := by rwa [hx] at hkeeps
    exact hset.body (l := { l with eax := eax }) (hw.setEax hl eax) (hs.upd hl) (upd_self ..)
      hable ((Call.keeps_setEax hl).2 hkeepsf) hb
  cases hst with
  | call hc hl hb _ _ => exact hcall hc hl rfl hb
  | yield hc hl hb _ _ hr => exact (hcall hc hl rfl hb).resched hr
  | @fault c l eax _ hc hl hr =>
    have hable := hrun.able hc hl
    have hset : (T.upd c { l with eax := eax }).Watched := h.upd_able hable
    exact (hset.die (hw.setEax hl eax) (hs.upd hl) (upd_self ..)).notify.resched hr
  | enterNone _ => exact h
  | @enter w l hreg hl =>
    intro a m hm hblocked
    have haw : a ≠ w := by
      rintro rfl
      simp only [upd_life, if_true, Option.some.injEq] at hm
      rw [← hm] at hblocked
      cases hblocked
    have hready : (T.upd w { l with state := .ready }).Watched := h.upd (by simp) (by simp)
    refine .inr ((hready a m hm hblocked).resolve_left fun hother => haw ?_)
    exact Option.some.inj (hother.symm.trans hreg)
  | key => exact h
  | tickIdle _ hr => exact h.resched hr
  | @tick c l eax _ hc hl hr =>
    have hable := hrun.able hc hl
    have hset : (T.upd c { l with eax := eax }).Watched := h.upd_able hable
    exact hset.resched hr
  | tickEmpty _ => exact h

/-! ## What takes a waker away -/

/-- The process is blocked and nobody will wake it. -/
def Lost (T : Table) (a : UInt32) : Prop :=
  ∃ l, T.life a = some l ∧ l.state = .blocked ∧ T.waiting ≠ some a ∧
    ∀ c, T.life l.waitingFor = some c → c.state = .zombie

theorem Lost.not_watched (h : T.Lost a) : ¬ T.Watched := by
  obtain ⟨l, hl, hblocked, hreg, hdead⟩ := h
  intro hwatched
  rcases hwatched a l hl hblocked with hw | ⟨c, hc, hz⟩
  · exact hreg hw
  · exact hz (hdead c hc)

/-- Updating a process that is not blocked, and alive only if it was. -/
theorem Lost.upd_able (h : T.Lost a) (hb : T.life b = some l) (hable : l.Able) :
    (T.upd b l').Lost a := by
  obtain ⟨m, hm, hblocked, hreg, hdead⟩ := h
  have hab : a ≠ b := by
    rintro rfl
    rw [hb, Option.some.injEq] at hm
    exact hable.1 (hm ▸ hblocked)
  refine ⟨m, by simpa [hab] using hm, hblocked, hreg, fun c hc => hdead c ?_⟩
  have hne : m.waitingFor ≠ b := by
    intro heq
    exact hable.2 (hdead l (heq ▸ hb))
  simpa [hne] using hc

theorem Lost.resched (h : T.Lost a) (hr : Resched T T') : T'.Lost a := by
  cases hr with
  | none => exact h
  | take hb hable => exact h.upd_able hb hable
  | takeRaw _ _ => exact h

/-- A blocked process loses its waker to a call that does not keep it. -/
theorem Body.lost (hw : T.WaitFields) (hs : T.Sound) (hc : T.life c = some l) (hable : l.Able)
    (hlost : ¬ f.Keeps T) (hb : Body T c l f T₁) : ∃ a, T₁.Lost a := by
  cases hb with
  | read =>
    simp only [Call.Keeps, not_forall, not_not] at hlost
    obtain ⟨w, m, hreg, hm, hblocked⟩ := hlost
    have hwc : w ≠ c := by
      rintro rfl
      rw [hc, Option.some.injEq] at hm
      exact hable.1 (hm ▸ hblocked)
    have hzero := (hw.reader w m hreg hm).2
    have hnobody : (T.upd c { l with state := .blocked }).life 0 = none := (hs.upd hc).zero
    refine ⟨w, m, by simpa [hwc] using hm, hblocked, by simpa using hwc.symm, fun d hd => ?_⟩
    rw [hzero] at hd
    exact absurd (hnobody.symm.trans hd) (by simp)
  | @kill p b hp =>
    simp only [Call.Keeps, not_forall, not_not] at hlost
    obtain ⟨-, -, a, m, hap, hm, hblocked, hwait⟩ := hlost
    have hreg : T.waiting ≠ some a := by
      intro hreg
      have hzero := (hw.reader a m hreg hm).2
      exact (hs.fresh p (.inl ⟨b, hp⟩)).1 (hwait.symm.trans hzero)
    refine ⟨a, m, by simpa [hap] using hm, hblocked, hreg, fun d hd => ?_⟩
    rw [hwait, upd_self, Option.some.injEq] at hd
    rw [← hd]
  | killMissing hnone =>
    simp [Call.Keeps, hnone] at hlost
  | _ => exact absurd trivial hlost

theorem Step.lost (hw : T.WaitFields) (hs : T.Sound) (hrun : T.Running)
    (hlost : ¬ x.Keeps T) (hst : Step T x T') : ∃ a, T'.Lost a := by
  have hcall : ∀ {c l eax f T₁}, T.current = some c → T.life c = some l → x = .call eax f →
      Body (T.upd c { l with eax := eax }) c { l with eax := eax } f T₁ → ∃ a, T₁.Lost a := by
    intro c l eax f T₁ hc hl hx hb
    have hlostf : ¬ f.Keeps T := by rwa [hx] at hlost
    have hable := hrun.able hc hl
    exact hb.lost (l := { l with eax := eax }) (hw.setEax hl eax) (hs.upd hl) (upd_self ..)
      hable fun hkeeps => hlostf ((Call.keeps_setEax hl).1 hkeeps)
  cases hst with
  | call hc hl hb _ _ => exact hcall hc hl rfl hb
  | yield hc hl hb _ _ hr =>
    obtain ⟨a, ha⟩ := hcall hc hl rfl hb
    exact ⟨a, ha.resched hr⟩
  | _ => exact absurd trivial hlost

end Kaku.Table

/-! ## Runs of the kernel -/

namespace Kaku.Kernel

variable {genkan : Image} {k₀ k k' : Kernel} {es : List Event} {e : Event} {a b : ProcPtr}

/-- `SYS_READ` finds no BLOCKED process registered, and `SYS_KILL` names no
process that another one is BLOCKED waiting for. -/
def KeepsWakers (k : Kernel) (e : Event) : Prop :=
  (e.reads = true → ∀ w ∈ k.waitingStdin, ∀ p ∈ k.heap w.p, p.procState ≠ .blocked) ∧
    ∀ pid ∈ e.kills, pid ∈ k.procs → ∀ a ∈ k.procs, a ≠ pid → k.waitsFor a pid = false

instance (k : Kernel) (e : Event) : Decidable (KeepsWakers k e) :=
  decidable_of_iff
    ((!e.reads || k.waitingStdin.all fun w => (k.heap w.p).all fun p => p.procState != .blocked) &&
      e.kills.all fun pid => !k.procs.contains pid ||
        k.procs.all fun a => a == pid || !k.waitsFor a pid)
    (by simp [KeepsWakers, Option.all_eq_true, imp_iff_not_or])

/-- Every BLOCKED process is registered in `__waiting_stdin`, or its
`waiting_for` names a process in `procs` that is not ZOMBIE. -/
def Watched (k : Kernel) : Prop :=
  ∀ a ∈ k.procs, ∀ p, k.heap a = some p → p.procState = .blocked →
    k.waitingStdin.map StdinWaitingProc.p = some a ∨
      ∃ b ∈ k.procs, ∃ q, k.heap b = some q ∧ q.procId = p.waitingFor ∧ q.procState ≠ .zombie

theorem watched_table (hk : k.Wf) : k.table.Watched ↔ k.Watched := by
  constructor
  · intro h a ha p hp hblocked
    refine (h a p.life (table_life hp) hblocked).imp_right ?_
    rintro ⟨c, hc, hz⟩
    obtain ⟨q, hq, rfl⟩ := table_life_iff.1 hc
    exact ⟨_, (hk.shape.mem_procs _).2 ⟨q, hq⟩, q, hq, hk.shape.pid _ _ hq, hz⟩
  · intro h a l hl hblocked
    obtain ⟨p, hp, rfl⟩ := table_life_iff.1 hl
    refine (h a ((hk.shape.mem_procs a).2 ⟨p, hp⟩) p hp hblocked).imp_right ?_
    rintro ⟨b, -, q, hq, hpid, hz⟩
    have hb : b = p.life.waitingFor := (hk.shape.pid _ _ hq).symm.trans hpid
    exact ⟨q.life, hb ▸ table_life hq, hz⟩

theorem keepsWakers_act (hk : k.Wf) : KeepsWakers k e ↔ e.act.Keeps k.table := by
  have hread : (∃ eax, e.act = .call eax .read) →
      ((∀ w ∈ k.waitingStdin, ∀ p ∈ k.heap w.p, p.procState ≠ .blocked) ↔
        e.act.Keeps k.table) := by
    rintro ⟨eax, hact⟩
    rw [hact]
    constructor
    · intro h w l hw hl
      obtain ⟨s, hs, rfl⟩ := Option.map_eq_some_iff.1 hw
      obtain ⟨p, hp, rfl⟩ := table_life_iff.1 hl
      exact h s hs p hp
    · intro h s hs p hp
      exact h s.p p.life (Option.map_eq_some_iff.2 ⟨s, hs, rfl⟩) (table_life hp)
  have hkill : ∀ pid, (∃ eax, e.act = .call eax (.kill pid)) →
      ((pid ∈ k.procs → ∀ a ∈ k.procs, a ≠ pid → k.waitsFor a pid = false) ↔
        e.act.Keeps k.table) := by
    rintro pid ⟨eax, hact⟩
    rw [hact]
    constructor
    · intro h b hb a l hne hl hblocked hwait
      obtain ⟨q, hq, rfl⟩ := table_life_iff.1 hb
      obtain ⟨p, hp, rfl⟩ := table_life_iff.1 hl
      have hno := h ((hk.shape.mem_procs _).2 ⟨q, hq⟩) a ((hk.shape.mem_procs _).2 ⟨p, hp⟩) hne
      have hblocked' : p.procState = .blocked := hblocked
      have hwait' : p.waitingFor = pid := hwait
      simp [waitsFor, hp, hblocked', hwait'] at hno
    · intro h hpid a ha hne
      obtain ⟨q, hq⟩ := (hk.shape.mem_procs _).1 hpid
      obtain ⟨p, hp⟩ := (hk.shape.mem_procs _).1 ha
      have hno := h q.life (table_life hq) a p.life hne (table_life hp)
      simpa [waitsFor, hp, Proc.life] using hno
  by_cases hr : e.reads = true
  · have hact := Event.act_eq_read.2 hr
    have hnokill : e.kills = none := by
      cases hk' : e.kills with
      | none => rfl
      | some pid =>
        obtain ⟨v, hv⟩ := hact
        obtain ⟨w, hw⟩ := Event.act_eq_kill.2 hk'
        rw [hv] at hw
        cases hw
    simp only [KeepsWakers, hr, hnokill, true_implies, Option.mem_def, reduceCtorEq,
      false_implies, implies_true, and_true]
    exact hread hact
  · cases hk' : e.kills with
    | none =>
      have hother : e.act.Keeps k.table := by
        unfold Table.Act.Keeps
        split
        · rename_i eax f hact
          cases f with
          | read => exact absurd (Event.act_eq_read.1 ⟨eax, hact⟩) hr
          | kill pid => simp [Event.act_eq_kill.1 ⟨eax, hact⟩] at hk'
          | _ => trivial
        · trivial
      simp [KeepsWakers, hr, hk', hother]
    | some pid =>
      simp only [KeepsWakers, hr, hk', Option.mem_def, Option.some.injEq, forall_eq',
        Bool.false_eq_true, false_implies, true_and]
      exact hkill pid (Event.act_eq_kill.2 hk')

/-- The invariant of the runs whose calls keep every waker. -/
structure Waking (k : Kernel) : Prop where
  inv : k.Inv
  watched : k.table.Watched

theorem Waking.boot (h : boot genkan = .ok k) : k.Waking := by
  refine ⟨.boot h, ?_⟩
  rw [(boot_wf h).2]
  have hempty : init.table.Watched := by
    intro a l hl
    cases hl
  exact hempty.spawn ⟨by simp [table, init], by simp [table, init], by simp [table, init]⟩
    (by decide)

theorem Waking.step (hk : k.Waking) (hC : KeepsWakers k e) (h : k.step e = .ok k') :
    k'.Waking := by
  obtain ⟨hinv, hstep⟩ := hk.inv.step h
  have hkeeps := (keepsWakers_act hk.inv.wf).1 hC
  exact ⟨hinv, hk.watched.step hk.inv.wait hk.inv.wf.sound hk.inv.wf.running hkeeps hstep⟩

theorem Waking.run (hk : k.Waking) (h : Run (Guarded KeepsWakers Kernel.step) k es k') :
    k'.Waking :=
  h.invariant (fun _ _ _ hst hs => hs.step hst.1 hst.2) hk

/-- In every run from boot whose calls keep every waker, each BLOCKED process has
one in every state reached; and any call that does not keep them leaves some
BLOCKED process without. -/
theorem no_wakeup_lost (hboot : boot genkan = .ok k₀)
    (hrun : Run (Guarded KeepsWakers step) k₀ es k) :
    k.Watched ∧ ∀ e j, k.step e = .ok j → ¬ KeepsWakers k e → ¬ j.Watched := by
  have hk := (Waking.boot hboot).run hrun
  refine ⟨(watched_table hk.inv.wf).1 hk.watched, fun e j hstep hC hwatched => ?_⟩
  obtain ⟨hinv, htstep⟩ := hk.inv.step hstep
  have hlost : ¬ e.act.Keeps k.table := fun hkeeps => hC ((keepsWakers_act hk.inv.wf).2 hkeeps)
  obtain ⟨a, ha⟩ := htstep.lost hk.inv.wait hk.inv.wf.sound hk.inv.wf.running hlost
  exact ha.not_watched ((watched_table hinv.wf).2 hwatched)

theorem no_wakeup_lost_reader :
    ∃ k₀ k, boot bareImage = .ok k₀ ∧
      Run (Guarded KeepsWakers step) k₀ [tick, trapExec, tick, trap sysRead 0] k ∧
      k.waitingStdin.map StdinWaitingProc.p = some 2 ∧ k.Watched := by
  obtain ⟨k₀, k, hboot, hrun, hp⟩ := exists_run_of_boot KeepsWakers bareImage
    [tick, trapExec, tick, trap sysRead 0]
    (fun k => decide (k.waitingStdin.map StdinWaitingProc.p = some 2)) (by decide)
  exact ⟨k₀, k, hboot, hrun, of_decide_eq_true hp, (no_wakeup_lost hboot hrun).1⟩

/-- Whether the process is BLOCKED, unregistered, and waits for nobody alive. -/
def stranded (k : Kernel) (a : ProcPtr) : Bool :=
  (k.heap a).any fun p => p.procState == .blocked &&
    k.waitingStdin.map StdinWaitingProc.p != some a &&
    k.procs.all fun b => (k.heap b).all fun q => q.procId != p.waitingFor || q.procState == .zombie

theorem stranded_not_watched (ha : a ∈ k.procs) (h : k.stranded a = true) : ¬ k.Watched := by
  intro hwatched
  obtain ⟨p, hp, h⟩ := Option.any_eq_true _ _ |>.1 h
  simp only [Bool.and_eq_true, beq_iff_eq, bne_iff_ne, List.all_eq_true, Option.all_eq_true,
    Bool.or_eq_true] at h
  obtain ⟨⟨hblocked, hreg⟩, hdead⟩ := h
  rcases hwatched a ha p hp hblocked with hw | ⟨b, hb, q, hq, hpid, hz⟩
  · exact hreg hw
  · rcases hdead b hb q hq with hne | hzombie
    · exact hne hpid
    · exact hz hzombie

/-- A second reader takes the slot of the first; and a child killed while its
parent waits for it. -/
theorem wakeup_lost :
    (∃ k₀ k, boot bareImage = .ok k₀ ∧
      Run (Guarded (fun _ _ => True) step) k₀
        [tick, trapExec, tick, trap sysRead 0, trap sysRead 0] k ∧ ¬ k.Watched) ∧
    ∃ k₀ k, boot bareImage = .ok k₀ ∧
      Run (Guarded (fun _ _ => True) step) k₀
        [tick, trapExec, trap sysWaitpid 2, trap sysKill 2] k ∧ ¬ k.Watched := by
  constructor
  · obtain ⟨k₀, k, hboot, hrun, hp⟩ := exists_run_of_boot (fun _ _ => True)
      bareImage [tick, trapExec, tick, trap sysRead 0, trap sysRead 0]
      (fun k => decide (2 ∈ k.procs) && k.stranded 2) (by decide)
    rw [Bool.and_eq_true] at hp
    exact ⟨k₀, k, hboot, hrun, stranded_not_watched (of_decide_eq_true hp.1) hp.2⟩
  · obtain ⟨k₀, k, hboot, hrun, hp⟩ := exists_run_of_boot (fun _ _ => True)
      bareImage [tick, trapExec, trap sysWaitpid 2, trap sysKill 2]
      (fun k => decide (1 ∈ k.procs) && k.stranded 1) (by decide)
    rw [Bool.and_eq_true] at hp
    exact ⟨k₀, k, hboot, hrun, stranded_not_watched (of_decide_eq_true hp.1) hp.2⟩

end Kaku.Kernel
