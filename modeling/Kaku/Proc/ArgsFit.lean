-- SUMMARY: Where the argument block of a new process is written, and when it stays on the user stack.
import Kaku.Proc.Args

/-!
# The writes of the argument block

`__scheduler_core` lowers an address by the length of each string and of each word and
copies there, without looking at how far it has come. The copies are listed here in
the order they are made, so that their addresses can be compared with the four pages
of the stack.
-/

namespace Kaku

/-! ## The copies -/

/-- The address to which pushing these lowers `addr`. -/
def pushedDown (addr : UInt32) : List (List UInt8) → UInt32
  | [] => addr
  | bs :: rest => pushedDown (addr - UInt32.ofNat bs.length) rest

/-- Where each of these goes. -/
def pushedAt (addr : UInt32) : List (List UInt8) → List UInt32
  | [] => []
  | bs :: rest =>
    let addr := addr - UInt32.ofNat bs.length
    addr :: pushedAt addr rest

/-- The addresses that pushing these writes, in order. -/
def pushWrites (addr : UInt32) : List (List UInt8) → List UInt32
  | [] => []
  | bs :: rest =>
    let addr := addr - UInt32.ofNat bs.length
    (List.range bs.length).map (fun i => addr + UInt32.ofNat i) ++ pushWrites addr rest

def pushAll (u : UserSpace) (addr : UInt32) : List (List UInt8) → K UserSpace
  | [] => .ok u
  | bs :: rest => do
    let addr := addr - UInt32.ofNat bs.length
    let u ← u.kmemcpy addr bs
    pushAll u addr rest

def terminated (ss : List (List UInt8)) : List (List UInt8) := ss.map fun s => s ++ [0]

/-- The words of a null-terminated array, in the order they are pushed. -/
def arrayWords (ptrs : List UInt32) : List (List UInt8) := (0 :: ptrs.reverse).map wordBytes

/-- All that `__scheduler_core` pushes for a process that has never run. -/
def argBlock (p : Proc) : List (List UInt8) :=
  let addr := pushedDown procUserStackTopVaddr (terminated p.argv)
  terminated p.argv ++ terminated p.env ++ arrayWords (pushedAt addr (terminated p.env)) ++
    arrayWords (pushedAt procUserStackTopVaddr (terminated p.argv))

/-- The byte at an address can be written through the user half of the address space. -/
def UserSpace.writable (u : UserSpace) (a : UInt32) : Bool :=
  decide (a < kernelVirtBase) && u.mapped (a >>> 12)

/-- The addresses up to the first one that faults, this one included. -/
def UserSpace.reached (u : UserSpace) : List UInt32 → List UInt32
  | [] => []
  | a :: as => a :: if u.writable a then u.reached as else []

/-- The addresses that the scheduler writes for the argument block. -/
def argWrites (p : Proc) : List UInt32 :=
  p.space.reached (pushWrites procUserStackTopVaddr (argBlock p))

/-- The pages of `proc_create` for the stack. -/
def InStack (a : UInt32) : Prop := 0x7FFC000 ≤ a.toNat ∧ a.toNat < 0x8000000

section Copies

variable {u u' : UserSpace} {addr a : UInt32} {bs : List UInt8}
  {ss bss css : List (List UInt8)} {ptrs ws as : List UInt32} {p p' : Proc}

theorem length_pushedAt : (pushedAt addr bss).length = bss.length := by
  induction bss generalizing addr with
  | nil => rfl
  | cons bs rest ih => rw [pushedAt, List.length_cons, ih, List.length_cons]

theorem pushedDown_append : pushedDown addr (bss ++ css) = pushedDown (pushedDown addr bss) css := by
  induction bss generalizing addr with
  | nil => rfl
  | cons bs rest ih => exact ih

theorem pushAll_append :
    pushAll u addr (bss ++ css) = pushAll u addr bss >>= fun v => pushAll v (pushedDown addr bss) css := by
  induction bss generalizing u addr with
  | nil => rfl
  | cons bs rest ih =>
    rw [List.cons_append, pushAll, pushAll]
    cases u.kmemcpy (addr - UInt32.ofNat bs.length) bs with
    | error e => rfl
    | ok v => exact ih

theorem pushStrings_eq : pushStrings u addr ss = pushAll u addr (terminated ss) >>= fun v =>
    .ok (v, pushedDown addr (terminated ss), pushedAt addr (terminated ss)) := by
  induction ss generalizing u addr with
  | nil => rfl
  | cons s ss ih =>
    have hlen : addr - (UInt32.ofNat s.length + 1) = addr - UInt32.ofNat (s ++ [0]).length := by
      rw [List.length_append, UInt32.ofNat_add]
      rfl
    simp only [pushStrings, terminated, List.map_cons, pushAll, pushedAt, pushedDown, hlen]
    cases u.kmemcpy (addr - UInt32.ofNat (s ++ [0]).length) (s ++ [0]) with
    | error e => rfl
    | ok v =>
      simp only [ok_bind, ih, terminated]
      cases pushAll v (addr - UInt32.ofNat (s ++ [0]).length) (ss.map fun s => s ++ [0]) <;> rfl

theorem pushWords_eq : pushWords u addr ws = pushAll u addr (ws.map wordBytes) >>= fun v =>
    .ok (v, pushedDown addr (ws.map wordBytes)) := by
  induction ws generalizing u addr with
  | nil => rfl
  | cons w ws ih =>
    rw [pushWords, List.map_cons, pushAll]
    have hfour : addr - UInt32.ofNat (wordBytes w).length = addr - 4 := rfl
    rw [hfour, pushedDown, hfour]
    cases u.kmemcpy (addr - 4) (wordBytes w) with
    | error e => rfl
    | ok v => exact ih

/-- The scheduler lays the block out by pushing it. -/
theorem layoutArgs_eq : layoutArgs p =
    pushAll p.space procUserStackTopVaddr (argBlock p) >>= fun u => .ok { p with
      space := u
      frame := { p.frame with userEsp := pushedDown procUserStackTopVaddr (argBlock p) }
      procState := .ready } := by
  simp only [layoutArgs, argBlock, pushStrings_eq, pushWords_eq, pushAll_append, pushedDown_append,
    arrayWords, bind_assoc, ok_bind]
  rfl

/-! ## Staying in the stack -/

theorem writable_iff :
    u.writable a = true ↔ a < kernelVirtBase ∧ u.mapped (a >>> 12) = true := by
  rw [UserSpace.writable, Bool.and_eq_true, decide_eq_true_eq]

theorem mem_reached (h : a ∈ u.reached as) : a ∈ as := by
  induction as with
  | nil => cases h
  | cons b as ih =>
    rcases List.mem_cons.1 h with rfl | h
    · exact List.mem_cons_self
    · split at h
      · exact List.mem_cons_of_mem b (ih h)
      · cases h

/-- Writes that leave the stack do so before one of them faults. -/
theorem reached_inStack_iff (hm : u.StackMapped) :
    (∀ a ∈ u.reached as, InStack a) ↔ ∀ a ∈ as, InStack a := by
  refine ⟨fun h => ?_, fun h a ha => h a (mem_reached ha)⟩
  induction as with
  | nil => exact fun a ha => absurd ha List.not_mem_nil
  | cons b as ih =>
    have hb : InStack b := h b List.mem_cons_self
    have hlow : b < kernelVirtBase := by
      rw [UInt32.lt_iff_toNat_lt, show kernelVirtBase.toNat = 0xC0000000 from rfl]
      have htop := hb.2
      omega
    have hwritable : u.writable b = true := writable_iff.2 ⟨hlow, hm.page hb.1 hb.2⟩
    rw [UserSpace.reached, if_pos hwritable] at h
    intro a ha
    rcases List.mem_cons.1 ha with rfl | ha
    · exact hb
    · exact ih (fun c hc => h c (List.mem_cons_of_mem b hc)) a ha

/-- A push stays in the stack if and only if it is not longer than the room that is left. -/
theorem push_inStack_iff (hlow : 0x7FFC000 ≤ addr.toNat) (htop : addr.toNat ≤ 0x8000000) :
    (∀ a ∈ (List.range bs.length).map (fun i => addr - UInt32.ofNat bs.length + UInt32.ofNat i),
      InStack a) ↔ 0x7FFC000 + bs.length ≤ addr.toNat := by
  simp only [List.forall_mem_map, List.mem_range]
  constructor
  · intro h
    by_contra hroom
    have hpos : 0 < bs.length := by omega
    have hfirst := h 0 hpos
    have hzero : ∀ d : UInt32, d + UInt32.ofNat 0 = d := add_zero
    rw [hzero] at hfirst
    by_cases hshort : bs.length ≤ 16384
    · rw [InStack, UserSpace.toNat_sub_ofNat (by omega)] at hfirst
      omega
    · -- So long a push has two bytes that are as far apart as the ends of the stack.
      have hlast := h 16384 (by omega)
      obtain ⟨hge, hlt⟩ := hfirst
      rw [InStack, UserSpace.toNat_add_ofNat (by omega)] at hlast
      omega
  · intro hroom i hi
    rw [InStack, UserSpace.toNat_add_ofNat, UserSpace.toNat_sub_ofNat (by omega)]
    · omega
    · rw [UserSpace.toNat_sub_ofNat (by omega)]
      omega

theorem pushWrites_inStack_iff (hlow : 0x7FFC000 ≤ addr.toNat) (htop : addr.toNat ≤ 0x8000000) :
    (∀ a ∈ pushWrites addr bss, InStack a) ↔ 0x7FFC000 + bss.flatten.length ≤ addr.toNat := by
  induction bss generalizing addr with
  | nil => simpa [pushWrites] using hlow
  | cons bs rest ih =>
    simp only [pushWrites, List.mem_append, or_imp, forall_and]
    rw [push_inStack_iff hlow htop, List.flatten_cons, List.length_append]
    by_cases hroom : 0x7FFC000 + bs.length ≤ addr.toNat
    · have hnext : (addr - UInt32.ofNat bs.length).toNat = addr.toNat - bs.length :=
        UserSpace.toNat_sub_ofNat (by omega)
      rw [ih (by omega) (by omega), hnext]
      omega
    · exact iff_of_false (fun h => hroom h.1) (by omega)

theorem length_terminated : (terminated ss).flatten.length = stringsSize ss := by
  simp [terminated, stringsSize, Function.comp_def]

theorem length_arrayWords : (arrayWords ptrs).flatten.length = 4 * (ptrs.length + 1) := by
  rw [arrayWords, ← List.flatMap_def, UserSpace.length_words, List.length_cons, List.length_reverse]

theorem length_argBlock : (argBlock p).flatten.length = argsSize p.argv p.env := by
  have hcount : ∀ ss, (terminated ss).length = ss.length := fun ss => List.length_map ..
  simp only [argBlock, List.flatten_append, List.length_append, length_terminated,
    length_arrayWords, length_pushedAt, hcount, argsSize]

/-- The block is written inside the stack if and only if it is not larger than that. -/
theorem argWrites_inStack_iff (hm : p.space.StackMapped) :
    (∀ a ∈ argWrites p, InStack a) ↔ argsSize p.argv p.env ≤ 16384 := by
  have htop : procUserStackTopVaddr.toNat = 0x8000000 := rfl
  rw [argWrites, reached_inStack_iff hm, pushWrites_inStack_iff (by omega) (by omega),
    length_argBlock, htop]
  omega

/-! ## Faults -/

theorem kmemcpy_mapped_eq (h : u.kmemcpy a bs = .ok u') : u'.mapped = u.mapped := by
  induction bs generalizing u a with
  | nil =>
    obtain rfl := Except.ok.inj h
    rfl
  | cons b bs ih =>
    obtain ⟨-, -, hrest⟩ := UserSpace.kmemcpy_cons h
    rw [ih hrest, UserSpace.store_mapped]

theorem kmemcpy_ok_iff : (∃ u', u.kmemcpy a bs = .ok u') ↔
    ∀ b ∈ (List.range bs.length).map (fun i => a + UInt32.ofNat i), u.writable b = true := by
  simp only [List.forall_mem_map, List.mem_range, writable_iff]
  refine ⟨?_, UserSpace.kmemcpy_mapped⟩
  rintro ⟨u', hcopy⟩ i hi
  exact UserSpace.kmemcpy_pages hcopy hi

/-- Pushing goes through if and only if none of its writes faults. -/
theorem pushAll_ok_iff : (∃ u', pushAll u addr bss = .ok u') ↔
    ∀ a ∈ pushWrites addr bss, u.writable a = true := by
  induction bss generalizing u addr with
  | nil => simp [pushAll, pushWrites]
  | cons bs rest ih =>
    simp only [pushAll, pushWrites, List.forall_mem_append, bind_eq_ok]
    have hkept : ∀ {v : UserSpace}, v.mapped = u.mapped → ∀ b, v.writable b = u.writable b := by
      intro v hv b
      rw [UserSpace.writable, UserSpace.writable, hv]
    constructor
    · rintro ⟨u', v, hcopy, hrest⟩
      refine ⟨kmemcpy_ok_iff.1 ⟨v, hcopy⟩, fun b hb => ?_⟩
      rw [← hkept (kmemcpy_mapped_eq hcopy)]
      exact ih.1 ⟨u', hrest⟩ b hb
    · rintro ⟨hfirst, hlater⟩
      obtain ⟨v, hcopy⟩ := kmemcpy_ok_iff.2 hfirst
      obtain ⟨u', hrest⟩ := ih.2 fun b hb => (hkept (kmemcpy_mapped_eq hcopy) b).trans (hlater b hb)
      exact ⟨u', v, hcopy, hrest⟩

theorem reached_writable_iff :
    (∀ a ∈ u.reached as, u.writable a = true) ↔ ∀ a ∈ as, u.writable a = true := by
  refine ⟨fun h => ?_, fun h a ha => h a (mem_reached ha)⟩
  induction as with
  | nil => exact fun a ha => absurd ha List.not_mem_nil
  | cons b as ih =>
    have hb := h b List.mem_cons_self
    rw [UserSpace.reached, if_pos hb] at h
    intro a ha
    rcases List.mem_cons.1 ha with rfl | ha
    · exact hb
    · exact ih (fun c hc => h c (List.mem_cons_of_mem b hc)) a ha

end Copies

/-! ## Runs of the kernel -/

namespace Kernel

variable {k k₀ k₁ k₂ : Kernel} {a : ProcPtr} {p : Proc} {es : List Event}
  {C : Kernel → Event → Prop} {genkan : Image}

/-- The dispatch of a process that has never run pushes its block, and faults at the first
write that it cannot make. -/
theorem schedulerCore_pushes (hdrop : k.dropZombieCurrent = .ok k₁)
    (hpick : k₁.pickNextReadyProc = .ok (k₂, some a)) (hp : k.heap a = some p)
    (hstart : p.procState = .starting) (hline : p.stdinKernelBuf = false) :
    k.schedulerCore = (pushAll p.space procUserStackTopVaddr (argBlock p) >>= fun u =>
        .ok ((k₂.switchTo a).set a { p with
          space := u
          frame := { p.frame with userEsp := pushedDown procUserStackTopVaddr (argBlock p) }
          procState := .ready }, .proc a)) ∧
      ((∃ r, k.schedulerCore = .ok r) ↔ ∀ w ∈ argWrites p, p.space.writable w = true) := by
  have hcore := schedulerCore_layout hdrop hpick hp hstart hline
  rw [layoutArgs_eq, bind_assoc] at hcore
  refine ⟨hcore, ?_⟩
  rw [argWrites, reached_writable_iff, ← pushAll_ok_iff, hcore]
  simp only [bind_eq_ok, ok_bind]
  constructor
  · rintro ⟨r, u, hu, -⟩
    exact ⟨u, hu⟩
  · rintro ⟨u, hu⟩
    exact ⟨_, u, hu, rfl⟩

/-- In every run, when the scheduler takes a process that has never run, the block is
written inside the pages of the stack if and only if it has at most their size. -/
theorem args_on_stack_iff (hboot : boot genkan = .ok k₀)
    (hrun : Run (Guarded C Kernel.step) k₀ es k) (hdrop : k.dropZombieCurrent = .ok k₁)
    (hpick : k₁.pickNextReadyProc = .ok (k₂, some a)) (hp : k.heap a = some p)
    (hstart : p.procState = .starting) (hstack : p.space.StackMapped) :
    k.schedulerCore = (pushAll p.space procUserStackTopVaddr (argBlock p) >>= fun u =>
        .ok ((k₂.switchTo a).set a { p with
          space := u
          frame := { p.frame with userEsp := pushedDown procUserStackTopVaddr (argBlock p) }
          procState := .ready }, .proc a)) ∧
      ((∃ r, k.schedulerCore = .ok r) ↔ ∀ w ∈ argWrites p, p.space.writable w = true) ∧
      ((∀ w ∈ argWrites p, InStack w) ↔ argsSize p.argv p.env ≤ 16384) := by
  have hline := ((StartsClean.boot hboot).run hrun) a p hp hstart
  obtain ⟨hcore, hfault⟩ := schedulerCore_pushes hdrop hpick hp hstart hline
  exact ⟨hcore, hfault, argWrites_inStack_iff hstack⟩

theorem argsImage_stackMapped {argv env : List (List UInt8)} :
    (argsImage argv env).space.StackMapped := by
  intro i hi
  have hpages : ∀ i < 4, (argsImage [] []).space.mapped
      ((procUserStackTopVaddr - UInt32.ofNat (i + 1) * 4096) >>> 12) = true := by decide
  exact hpages i hi

theorem args_on_stack_ls :
    ∃ k k₁ k₂ p, Kernel.boot (argsImage [[0x6C, 0x73]] []) = .ok k ∧
      k.dropZombieCurrent = .ok k₁ ∧ k₁.pickNextReadyProc = .ok (k₂, some 1) ∧
      k.heap 1 = some p ∧ p.argv = [[0x6C, 0x73]] ∧ ∀ w ∈ argWrites p, InStack w := by
  obtain ⟨k, k₁, k₂, p, hboot, hdrop, hpick, hp, hstart, hargv, henv, hspace⟩ :=
    boot_picks (argsImage [[0x6C, 0x73]] [])
  have hrun : Run (Guarded (fun _ _ => True) Kernel.step) k [] k := .refl k
  have hfits := (@args_on_stack_iff k k k₁ k₂ 1 p [] _ _ hboot hrun hdrop hpick hp hstart
    (hspace ▸ argsImage_stackMapped)).2.2
  rw [hargv, henv] at hfits
  exact ⟨k, k₁, k₂, p, hboot, hdrop, hpick, hp, hargv, hfits.2 (by decide)⟩

/-- One argument of 16372 characters makes a block of 16385 bytes. -/
theorem args_below_stack :
    ∃ k k₁ k₂ p, Kernel.boot (argsImage [List.replicate 16372 0x61] []) = .ok k ∧
      k.dropZombieCurrent = .ok k₁ ∧ k₁.pickNextReadyProc = .ok (k₂, some 1) ∧
      k.heap 1 = some p ∧ p.procState = .starting ∧ p.space.StackMapped ∧
      ∃ w ∈ argWrites p, ¬ InStack w := by
  obtain ⟨k, k₁, k₂, p, hboot, hdrop, hpick, hp, hstart, hargv, henv, hspace⟩ :=
    boot_picks (argsImage [List.replicate 16372 0x61] [])
  have hstack : p.space.StackMapped := hspace ▸ argsImage_stackMapped
  have hsize : argsSize p.argv p.env = 16385 := by
    rw [hargv, henv]
    simp only [argsSize, stringsSize, argsImage, List.map_cons, List.map_nil,
      List.length_replicate, List.sum_cons, List.sum_nil, List.length_cons, List.length_nil]
    rfl
  have hout : ¬ ∀ w ∈ argWrites p, InStack w := by
    rw [argWrites_inStack_iff hstack, hsize]
    decide
  push Not at hout
  exact ⟨k, k₁, k₂, p, hboot, hdrop, hpick, hp, hstart, hstack, hout⟩

end Kernel

end Kaku
