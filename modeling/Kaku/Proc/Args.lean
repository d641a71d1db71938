-- SUMMARY: The argument block of a new process, from the scheduler that lays it out to the main function that gets it.
import Mathlib.Data.List.Forall2
import Mathlib.Tactic.IntervalCases
import Kaku.Proc.Line

/-!
# Arguments and environment

`__scheduler_core` writes the block downwards from the top of the user stack:
strings, the `envp` array, the `argv` array. `_start` knows its lowest address only
and scans upwards for the two arrays.
-/

namespace Kaku

/-- A terminated string of C, at an address that is not null. -/
structure UserSpace.CString (u : UserSpace) (ptr : UInt32) (s : List UInt8) : Prop where
  nonnull : ptr ≠ 0
  nul_free : 0 ∉ s
  text : u.Holds ptr (s ++ [0])

/-- A null-terminated array of pointers to these strings, in order. -/
def UserSpace.Strings (u : UserSpace) (a : UInt32) (ss : List (List UInt8)) : Prop :=
  ∃ ptrs, u.Holds a ((ptrs ++ [0]).flatMap wordBytes) ∧ List.Forall₂ u.CString ptrs ss

/-- The four pages `proc_create` maps for the stack. -/
def UserSpace.StackMapped (u : UserSpace) : Prop :=
  ∀ i < 4, u.mapped ((procUserStackTopVaddr - UInt32.ofNat (i + 1) * 4096) >>> 12) = true

def stringsSize (ss : List (List UInt8)) : Nat := (ss.map fun s => s.length + 1).sum

/-- The size of the block. -/
def argsSize (argv env : List (List UInt8)) : Nat :=
  stringsSize argv + stringsSize env + 4 * (env.length + 1) + 4 * (argv.length + 1)

/-! ## `user_fs/src/_start.c` -/

/-- The loop at label 1. -/
def scanArgv (u : UserSpace) (eax : UInt32) : (fuel : Nat) → (ecx : UInt32) → Option UInt32
  | 0, _ => none
  | fuel + 1, ecx => do
    let w ← u.load32 (eax + 4 * ecx)
    if w = 0 then pure ecx else scanArgv u eax fuel (ecx + 1)

def storeWord (u : UserSpace) (a w : UInt32) : Option UserSpace :=
  (u.kmemcpy a (wordBytes w)).toOption

/-- `_start` up to its call of `main`: the memory and the stack pointer `main` is
entered with. `environ` is where the variable of that name was linked to, and `ret`
is the return address of the call. -/
def start (fuel : Nat) (u : UserSpace) (esp environ ret : UInt32) :
    Option (UserSpace × UInt32) := do
  let eax := esp
  let ecx ← scanArgv u eax fuel 0
  let edx := ((ecx + 1) <<< 2) + eax
  let u ← storeWord u environ edx
  let esp := esp - 4
  let u ← storeWord u esp eax
  let esp := esp - 4
  let u ← storeWord u esp ecx
  let esp := esp - 4
  let u ← storeWord u esp ret
  pure (u, esp)

/-- What `main` and the libraries find: argc and argv above the return address, and
`environ`. -/
structure MainGets (u : UserSpace) (esp environ : UInt32) (argv env : List (List UInt8)) :
    Prop where
  count : ∃ argc, u.load32 (esp + 4) = some argc ∧ argc.toNat = argv.length
  args : ∃ a, u.load32 (esp + 8) = some a ∧ u.Strings a argv
  vars : ∃ e, u.load32 environ = some e ∧ u.Strings e env

/-! ## Pushing -/

namespace UserSpace

variable {u u' v : UserSpace} {addr a low : UInt32} {bs : List UInt8} {s : List UInt8}
variable {ss : List (List UInt8)} {ws ptrs : List UInt32}

theorem StackMapped.page (h : u.StackMapped) (hlo : 0x7FFC000 ≤ a.toNat)
    (hhi : a.toNat < 0x8000000) : u.mapped (a >>> 12) = true := by
  have hpage : (a >>> 12).toNat = a.toNat / 4096 := by
    rw [UInt32.toNat_shiftRight, Nat.shiftRight_eq_div_pow]
    rfl
  have hi := h (0x7FFF - a.toNat / 4096) (by omega)
  have hsame : (procUserStackTopVaddr - UInt32.ofNat (0x7FFF - a.toNat / 4096 + 1) * 4096) >>> 12 =
      a >>> 12 := by
    apply UInt32.toNat_inj.1
    rw [hpage]
    generalize hq : a.toNat / 4096 = q
    have hlow : 0x7FFC ≤ q := by omega
    have hhigh : q ≤ 0x7FFF := by omega
    interval_cases q <;> rfl
  rw [← hsame]
  exact hi

theorem StackMapped.agree {keep : UInt32 → Prop} (h : u.StackMapped) (hu : Agree u u' keep) :
    u'.StackMapped := by
  intro i hi
  rw [hu.mapped]
  exact h i hi

/-- What a stack that has grown down to `addr` leaves alone from there on. -/
def Spared (addr a : UInt32) : Prop := addr.toNat ≤ a.toNat ∨ a.toNat < 0x7FFC000

/-- The addresses from `low` up to `high`. -/
def Within (low high a : UInt32) : Prop := low.toNat ≤ a.toNat ∧ a.toNat < high.toNat

theorem Spared.mono (h : low.toNat ≤ addr.toNat) : Spared addr a → Spared low a
  | .inl ha => .inl (h.trans ha)
  | .inr ha => .inr ha

theorem toNat_sub_ofNat {n : Nat} (h : n ≤ addr.toNat) :
    (addr - UInt32.ofNat n).toNat = addr.toNat - n := by
  have haddr := addr.toNat_lt
  have hsize : UInt32.size = 2 ^ 32 := rfl
  rw [UInt32.toNat_sub, UInt32.toNat_ofNat_of_lt' (by omega)]
  omega

theorem toNat_add_ofNat {n : Nat} (h : a.toNat + n < 2 ^ 32) :
    (a + UInt32.ofNat n).toNat = a.toNat + n := by
  have hsize : UInt32.size = 2 ^ 32 := rfl
  rw [UInt32.toNat_add, UInt32.toNat_ofNat_of_lt' (by omega), Nat.mod_eq_of_lt h]

theorem push_spec (bs : List UInt8) (hm : u.StackMapped) (htop : addr.toNat ≤ 0x8000000)
    (hroom : 0x7FFC000 + bs.length ≤ addr.toNat) :
    ∃ u', u.kmemcpy (addr - UInt32.ofNat bs.length) bs = .ok u' ∧ Agree u u' (Spared addr) ∧
      u'.Holds (addr - UInt32.ofNat bs.length) bs := by
  have hdst : (addr - UInt32.ofNat bs.length).toNat = addr.toNat - bs.length :=
    toNat_sub_ofNat (by omega)
  have hpages : ∀ i < bs.length, addr - UInt32.ofNat bs.length + UInt32.ofNat i < kernelVirtBase ∧
      u.mapped ((addr - UInt32.ofNat bs.length + UInt32.ofNat i) >>> 12) = true := by
    intro i hi
    have hat : (addr - UInt32.ofNat bs.length + UInt32.ofNat i).toNat =
        addr.toNat - bs.length + i := by
      rw [toNat_add_ofNat (by omega), hdst]
    refine ⟨?_, hm.page (by omega) (by omega)⟩
    rw [UInt32.lt_iff_toNat_lt, hat, show kernelVirtBase.toNat = 0xC0000000 from rfl]
    omega
  obtain ⟨u', hu'⟩ := kmemcpy_mapped hpages
  refine ⟨u', hu', (agree_of_kmemcpy hu' (by omega)).mono fun a ha => ?_,
    holds_of_kmemcpy hu' (by omega)⟩
  have haddr := a.toNat_lt
  rw [UInt32.toNat_sub, hdst]
  rcases ha with ha | ha <;> omega

/-- A string or array written last is still there when only lower addresses have
been written since. -/
theorem Holds.pushed (h : u.Holds a bs) (hin : a.toNat + bs.length ≤ 0x8000000)
    (hu : Agree u u' (Spared a)) : u'.Holds a bs := by
  apply h.agree hu
  intro i hi
  left
  rw [toNat_add_ofNat (by omega)]
  exact Nat.le_add_right ..

theorem Holds.within (h : u.Holds a bs) {high : UInt32} (hlow : low.toNat ≤ a.toNat)
    (hhigh : a.toNat + bs.length ≤ high.toNat) (hu : Agree u u' (Within low high)) :
    u'.Holds a bs := by
  apply h.agree hu
  intro i hi
  have hbound := high.toNat_lt
  rw [Within, toNat_add_ofNat (by omega)]
  omega

theorem pushStrings_spec (hm : u.StackMapped) (htop : addr.toNat ≤ 0x8000000)
    (hroom : 0x7FFC000 + stringsSize ss ≤ addr.toNat) (hnul : ∀ s ∈ ss, 0 ∉ s) :
    ∃ u' low ptrs, pushStrings u addr ss = .ok (u', low, ptrs) ∧ Agree u u' (Spared addr) ∧
      low.toNat = addr.toNat - stringsSize ss ∧ ptrs.length = ss.length ∧
      ∀ v, Agree u' v (Within low addr) → List.Forall₂ v.CString ptrs ss := by
  induction ss generalizing u addr with
  | nil => exact ⟨u, addr, [], rfl, .refl u, rfl, rfl, fun v _ => .nil⟩
  | cons s ss ih =>
    have hsize : stringsSize (s :: ss) = s.length + 1 + stringsSize ss := by
      simp [stringsSize]
    have hlen : (s ++ [0]).length = s.length + 1 := by simp
    obtain ⟨u₁, hcopy, hagree₁, hholds⟩ := push_spec (s ++ [0]) hm htop (by omega)
    have hnext : addr - UInt32.ofNat (s ++ [0]).length = addr - (UInt32.ofNat s.length + 1) := by
      rw [hlen, UInt32.ofNat_add]
      rfl
    have hnat : (addr - UInt32.ofNat (s ++ [0]).length).toNat = addr.toNat - (s.length + 1) := by
      rw [toNat_sub_ofNat (by omega), hlen]
    rw [hnext] at hcopy hholds hnat
    have htop₁ : (addr - (UInt32.ofNat s.length + 1)).toNat ≤ 0x8000000 := by omega
    obtain ⟨u', low, ptrs, hrest, hagree, hlow, hptrs, hstrings⟩ :=
      ih (hm.agree hagree₁) htop₁ (by omega) fun t ht => hnul t (List.mem_cons_of_mem s ht)
    refine ⟨u', low, (addr - (UInt32.ofNat s.length + 1)) :: ptrs, ?_, ?_, ?_, ?_, ?_⟩
    · simp only [pushStrings, hcopy, ok_bind, hrest]
      rfl
    · exact hagree₁.trans (hagree.mono fun a => Spared.mono (by omega))
    · omega
    · simp [hptrs]
    · intro v hv
      refine .cons ⟨?_, hnul s (List.mem_cons_self ..), ?_⟩ (hstrings v (hv.mono fun a ha => ?_))
      · intro hzero
        rw [hzero] at hnat
        simp only [UInt32.toNat_zero] at hnat
        omega
      · have hkept := hholds.pushed (by omega) hagree
        exact hkept.within (by omega) (by omega) hv
      · rw [Within] at ha ⊢
        omega

theorem length_words (ws : List UInt32) : (ws.flatMap wordBytes).length = 4 * ws.length := by
  induction ws with
  | nil => rfl
  | cons w ws ih =>
    rw [List.flatMap_cons, List.length_append, ih, List.length_cons]
    simp only [wordBytes, List.length_cons, List.length_nil]
    omega

theorem pushWords_spec (hm : u.StackMapped) (htop : addr.toNat ≤ 0x8000000)
    (hroom : 0x7FFC000 + 4 * ws.length ≤ addr.toNat) :
    ∃ u' low, pushWords u addr ws = .ok (u', low) ∧ Agree u u' (Spared addr) ∧
      low.toNat = addr.toNat - 4 * ws.length ∧ u'.Holds low (ws.reverse.flatMap wordBytes) := by
  induction ws generalizing u addr with
  | nil => exact ⟨u, addr, rfl, .refl u, rfl, .nil⟩
  | cons w ws ih =>
    simp only [List.length_cons] at hroom
    have hlen : (wordBytes w).length = 4 := rfl
    obtain ⟨u₁, hcopy, hagree₁, hholds⟩ := push_spec (wordBytes w) hm htop (by omega)
    have hnat : (addr - UInt32.ofNat (wordBytes w).length).toNat = addr.toNat - 4 :=
      toNat_sub_ofNat (by omega)
    have hnext : addr - UInt32.ofNat (wordBytes w).length = addr - 4 := rfl
    rw [hnext] at hcopy hholds hnat
    have htop₁ : (addr - 4).toNat ≤ 0x8000000 := by omega
    obtain ⟨u', low, hrest, hagree, hlow, hwords⟩ := ih (hm.agree hagree₁) htop₁ (by omega)
    refine ⟨u', low, ?_, ?_, ?_, ?_⟩
    · simp only [pushWords, hcopy, ok_bind, hrest]
    · exact hagree₁.trans (hagree.mono fun a => Spared.mono (by omega))
    · simp only [List.length_cons]
      omega
    · rw [List.reverse_cons, List.flatMap_append, holds_append]
      refine ⟨hwords, ?_⟩
      have hat : low + UInt32.ofNat (ws.reverse.flatMap wordBytes).length = addr - 4 := by
        apply UInt32.toNat_inj.1
        rw [length_words, List.length_reverse, toNat_add_ofNat (by omega), hnat, hlow]
        omega
      rw [hat, List.flatMap_singleton]
      exact hholds.pushed (by omega) hagree

theorem Agree.within {high low' high' : UInt32} (h : Agree u u' (Within low high))
    (hlow : low.toNat ≤ low'.toNat) (hhigh : high'.toNat ≤ high.toNat) :
    Agree u u' (Within low' high') := by
  apply h.mono
  intro a ha
  rw [Within] at ha ⊢
  omega

theorem Agree.spared {high : UInt32} (h : Agree u u' (Spared addr))
    (hlow : addr.toNat ≤ low.toNat) : Agree u u' (Within low high) := by
  apply h.mono
  intro a ha
  left
  exact hlow.trans ha.1

/-! ## The block -/

/-- The two arrays, one above the other, with their strings. -/
structure Block (u : UserSpace) (esp : UInt32) (argv env : List (List UInt8)) : Prop where
  args : u.Strings esp argv
  vars : u.Strings (esp + UInt32.ofNat (4 * (argv.length + 1))) env

/-- A block that fits is laid out, and stays for as long as its bytes do. -/
theorem layoutArgs_spec {p : Proc} (hm : p.space.StackMapped)
    (hfits : argsSize p.argv p.env ≤ 16384) (hargv : ∀ s ∈ p.argv, 0 ∉ s)
    (henv : ∀ s ∈ p.env, 0 ∉ s) :
    ∃ p', layoutArgs p = .ok p' ∧ Agree p.space p'.space (Spared procUserStackTopVaddr) ∧
      p'.frame.userEsp.toNat = 0x8000000 - argsSize p.argv p.env ∧
      ∀ v, Agree p'.space v (Within p'.frame.userEsp procUserStackTopVaddr) →
        v.Block p'.frame.userEsp p.argv p.env := by
  have htop : procUserStackTopVaddr.toNat = 0x8000000 := rfl
  rw [argsSize] at hfits ⊢
  have hroom₁ : 0x7FFC000 + stringsSize p.argv ≤ procUserStackTopVaddr.toNat := by omega
  obtain ⟨u₁, low₁, aptrs, hargvs, hagree₁, hlow₁, halen, hastrings⟩ :=
    pushStrings_spec hm (by omega) hroom₁ hargv
  have hroom₂ : 0x7FFC000 + stringsSize p.env ≤ low₁.toNat := by omega
  obtain ⟨u₂, low₂, eptrs, henvs, hagree₂, hlow₂, helen, hestrings⟩ :=
    pushStrings_spec (hm.agree hagree₁) (by omega) hroom₂ henv
  have hm₂ := (hm.agree hagree₁).agree hagree₂
  have hecount : (0 :: eptrs.reverse).length = p.env.length + 1 := by simp [helen]
  have hacount : (0 :: aptrs.reverse).length = p.argv.length + 1 := by simp [halen]
  have hroom₃ : 0x7FFC000 + 4 * (0 :: eptrs.reverse).length ≤ low₂.toNat := by omega
  obtain ⟨u₃, low₃, hewords, hagree₃, hlow₃, heholds⟩ := pushWords_spec hm₂ (by omega) hroom₃
  have hroom₄ : 0x7FFC000 + 4 * (0 :: aptrs.reverse).length ≤ low₃.toNat := by omega
  obtain ⟨u₄, low₄, hawords, hagree₄, hlow₄, haholds⟩ :=
    pushWords_spec (hm₂.agree hagree₃) (by omega) hroom₄
  -- each push stays below the one before, and the first one below the top of the stack
  have hall₂ : Agree u₁ u₂ (Spared procUserStackTopVaddr) :=
    hagree₂.mono fun a => Spared.mono (by omega)
  refine ⟨{ p with
    space := u₄
    frame := { p.frame with userEsp := low₄ }
    procState := .ready }, ?_, ?_, ?_, ?_⟩
  · simp only [layoutArgs, hargvs, henvs, hewords, hawords, ok_bind]
    rfl
  · apply hagree₁.trans
    apply hall₂.trans
    apply (hagree₃.mono fun a => Spared.mono (by omega)).trans
    exact hagree₄.mono fun a => Spared.mono (by omega)
  · simp only
    omega
  · intro v hv
    simp only at hv ⊢
    -- the pointers are pushed from the last one on, so they stand in the order of the strings
    have hreverse : ∀ ptrs : List UInt32, (0 :: ptrs.reverse).reverse = ptrs ++ [0] := by
      intro ptrs
      simp
    rw [hreverse] at heholds haholds
    have helen' : ((eptrs ++ [0]).flatMap wordBytes).length = 4 * (p.env.length + 1) := by
      rw [length_words]
      simp [helen]
    have halen' : ((aptrs ++ [0]).flatMap wordBytes).length = 4 * (p.argv.length + 1) := by
      rw [length_words]
      simp [halen]
    constructor
    · refine ⟨aptrs, haholds.within (by omega) (by omega) hv, hastrings v ?_⟩
      apply (hagree₂.spared (by omega)).trans
      apply (hagree₃.spared (by omega)).trans
      apply (hagree₄.spared (by omega)).trans
      exact hv.within (by omega) (by omega)
    · have hat : low₄ + UInt32.ofNat (4 * (p.argv.length + 1)) = low₃ := by
        apply UInt32.toNat_inj.1
        rw [toNat_add_ofNat (by omega)]
        omega
      rw [hat]
      refine ⟨eptrs, ?_, hestrings v ?_⟩
      · have hkept := heholds.pushed (by omega) hagree₄
        exact hkept.within (by omega) (by omega) hv
      · apply (hagree₃.spared (by omega)).trans
        apply (hagree₄.spared (by omega)).trans
        exact hv.within (by omega) (by omega)

/-! ## The scan -/

theorem load32_words {w : UInt32} {i : Nat} (h : u.Holds a (ws.flatMap wordBytes))
    (hi : ws[i]? = some w) : u.load32 (a + 4 * UInt32.ofNat i) = some w := by
  induction ws generalizing a i with
  | nil => cases hi
  | cons w' ws ih =>
    rw [List.flatMap_cons, holds_append] at h
    cases i with
    | zero =>
      simp only [List.getElem?_cons_zero, Option.some.injEq] at hi
      subst hi
      have hzero : a + 4 * UInt32.ofNat 0 = a := by
        rw [show UInt32.ofNat 0 = 0 from rfl, UInt32.mul_zero, UInt32.add_zero]
      rw [hzero]
      exact load32_of_holds h.1
    | succ i =>
      have hnext : a + 4 * UInt32.ofNat (i + 1) = a + 4 + 4 * UInt32.ofNat i := by
        rw [UInt32.ofNat_add, UInt32.mul_add, UInt32.add_comm (4 * UInt32.ofNat i),
          ← UInt32.add_assoc]
        rfl
      rw [hnext]
      exact ih h.2 hi

/-- The scan stops at the terminator of the array, and has counted its entries. -/
theorem scanArgv_spec {fuel : Nat} (h : u.Holds a ((ptrs ++ [0]).flatMap wordBytes))
    (hne : ∀ ptr ∈ ptrs, ptr ≠ 0) (hfuel : ptrs.length < fuel) :
    scanArgv u a fuel 0 = some (UInt32.ofNat ptrs.length) := by
  have hscan : ∀ left i fuel, i + left = ptrs.length → left < fuel →
      scanArgv u a fuel (UInt32.ofNat i) = some (UInt32.ofNat ptrs.length) := by
    intro left
    induction left with
    | zero =>
      intro i fuel hi hfuel
      obtain ⟨fuel, rfl⟩ := Nat.exists_eq_add_of_lt hfuel
      have hend : (ptrs ++ [0])[i]? = some 0 := by
        rw [List.getElem?_append_right (by omega)]
        simp [show i - ptrs.length = 0 by omega]
      rw [Nat.zero_add, scanArgv, load32_words h hend]
      simp [show i = ptrs.length by omega]
    | succ left ih =>
      intro i fuel hi hfuel
      obtain ⟨fuel, rfl⟩ := Nat.exists_eq_add_of_lt hfuel
      have hlt : i < ptrs.length := by omega
      have hentry : (ptrs ++ [0])[i]? = some ptrs[i] := by
        rw [List.getElem?_append_left hlt, List.getElem?_eq_getElem hlt]
      have hptr : ptrs[i] ≠ 0 := hne _ (List.getElem_mem hlt)
      have hrest := ih (i + 1) (left + 1 + fuel) (by omega) (by omega)
      rw [UInt32.ofNat_add] at hrest
      rw [scanArgv, load32_words h hentry]
      simp only [Option.bind_eq_bind, Option.bind_some, if_neg hptr]
      exact hrest
  exact hscan ptrs.length 0 fuel (Nat.zero_add _) hfuel

/-- Mapped user memory outside the stack, where a program keeps its variables. -/
def DataAt (u : UserSpace) (a : UInt32) : Prop :=
  ∀ i < 4, a + UInt32.ofNat i < kernelVirtBase ∧ u.mapped ((a + UInt32.ofNat i) >>> 12) = true ∧
    ((a + UInt32.ofNat i).toNat < 0x7FFC000 ∨ 0x8000000 ≤ (a + UInt32.ofNat i).toNat)

theorem DataAt.agree {keep : UInt32 → Prop} (h : u.DataAt a) (hu : Agree u u' keep) :
    u'.DataAt a := by
  intro i hi
  rw [hu.mapped]
  exact h i hi

/-- A store to such memory leaves the stack alone. -/
theorem storeWord_data {environ w : UInt32} (h : u.DataAt environ) :
    ∃ u', storeWord u environ w = some u' ∧ u'.Holds environ (wordBytes w) ∧
      Agree u u' (Within 0x7FFC000 procUserStackTopVaddr) := by
  obtain ⟨u', hcopy⟩ : ∃ u', u.kmemcpy environ (wordBytes w) = .ok u' :=
    kmemcpy_mapped fun i hi => ⟨(h i hi).1, (h i hi).2.1⟩
  have hlen : (wordBytes w).length = 4 := rfl
  refine ⟨u', by rw [storeWord, hcopy]; rfl, holds_of_kmemcpy hcopy (by omega), ?_⟩
  refine (agree_of_kmemcpy hcopy (by omega)).mono fun a ha => ?_
  rw [hlen]
  by_contra hnear
  -- An address that close to the variable is one of its four.
  obtain ⟨-, -, hout⟩ := h (a - environ).toNat (by omega)
  have hat : environ + UInt32.ofNat (a - environ).toNat = a := by
    rw [UInt32.ofNat_toNat, UInt32.add_comm, UInt32.sub_add_cancel]
  rw [hat] at hout
  have htop : procUserStackTopVaddr.toNat = 0x8000000 := rfl
  have hbase : (0x7FFC000 : UInt32).toNat = 0x7FFC000 := rfl
  rw [Within] at ha
  omega

theorem storeWord_push {w : UInt32} (hm : u.StackMapped) (htop : addr.toNat ≤ 0x8000000)
    (hroom : 0x7FFC000 + 4 ≤ addr.toNat) :
    ∃ u', storeWord u (addr - 4) w = some u' ∧ Agree u u' (Spared addr) ∧
      u'.Holds (addr - 4) (wordBytes w) := by
  obtain ⟨u', hcopy, hagree, hholds⟩ := push_spec (wordBytes w) hm htop hroom
  refine ⟨u', ?_, hagree, hholds⟩
  rw [storeWord]
  exact congrArg Except.toOption hcopy

theorem Holds.spared {environ w : UInt32} (h : u.Holds environ (wordBytes w))
    (hdata : u.DataAt environ) (htop : addr.toNat ≤ 0x8000000) (hu : Agree u u' (Spared addr)) :
    u'.Holds environ (wordBytes w) := by
  apply h.agree hu
  intro i hi
  rcases (hdata i hi).2.2 with hlow | hhigh
  · exact .inr hlow
  · exact .inl (htop.trans hhigh)

/-- The pointers of `argv` and the null behind them, in bytes, as `_start` counts them. -/
theorem four_mul_succ {n : Nat} (h : n < 2 ^ 29) :
    (UInt32.ofNat n + 1) <<< 2 = UInt32.ofNat (4 * (n + 1)) := by
  apply UInt32.toNat_inj.1
  have hsize : UInt32.size = 2 ^ 32 := rfl
  rw [UInt32.toNat_shiftLeft, UInt32.toNat_ofNat_of_lt' (by omega),
    show (2 : UInt32).toNat % 32 = 2 from rfl, UInt32.toNat_add,
    UInt32.toNat_ofNat_of_lt' (by omega), Nat.shiftLeft_eq, UInt32.toNat_one]
  omega

/-- Above a block, with twelve bytes of stack left below it, `_start` enters `main`. -/
theorem start_spec {esp environ ret : UInt32} {argv env : List (List UInt8)} {fuel : Nat}
    (hm : u.StackMapped) (hroom : 0x7FFC000 + 12 ≤ esp.toNat) (htop : esp.toNat ≤ 0x8000000)
    (hcount : argv.length < 2 ^ 29)
    (hblock : ∀ v, Agree u v (Within esp procUserStackTopVaddr) → v.Block esp argv env)
    (hdata : u.DataAt environ) (hfuel : argv.length < fuel) :
    ∃ u' esp', start fuel u esp environ ret = some (u', esp') ∧
      MainGets u' esp' environ argv env := by
  obtain ⟨⟨ptrs, harray, hstrings⟩, -⟩ := hblock u (.refl u)
  have hlen : ptrs.length = argv.length := hstrings.length_eq
  have hne : ∀ ptr ∈ ptrs, ptr ≠ 0 := by
    intro ptr hptr
    obtain ⟨i, hi, rfl⟩ := List.getElem_of_mem hptr
    exact (hstrings.get hi (by omega)).nonnull
  have hfuel' : ptrs.length < fuel := by omega
  have hscan := scanArgv_spec harray hne hfuel'
  rw [hlen] at hscan
  have hword : ∀ w, (wordBytes w).length = 4 := fun _ => rfl
  generalize hedx : ((UInt32.ofNat argv.length + 1) <<< 2) + esp = edx
  have hedx' : edx = esp + UInt32.ofNat (4 * (argv.length + 1)) := by
    rw [← hedx, UInt32.add_comm, four_mul_succ hcount]
  -- `environ` is written first, then the two arguments and the return address are pushed
  obtain ⟨u₁, hstore₁, henviron, hagree₁⟩ := storeWord_data (w := edx) hdata
  have hm₁ := hm.agree hagree₁
  obtain ⟨u₂, hstore₂, hagree₂, hargv⟩ := storeWord_push (w := esp) hm₁ htop (by omega)
  have hm₂ := hm₁.agree hagree₂
  have hesp₂ : (esp - 4).toNat = esp.toNat - 4 := toNat_sub_ofNat (n := 4) (by omega)
  obtain ⟨u₃, hstore₃, hagree₃, hargc⟩ :=
    storeWord_push (w := UInt32.ofNat argv.length) hm₂ (by omega : (esp - 4).toNat ≤ 0x8000000)
      (by omega)
  have hm₃ := hm₂.agree hagree₃
  have hesp₃ : (esp - 4 - 4).toNat = (esp - 4).toNat - 4 := toNat_sub_ofNat (n := 4) (by omega)
  obtain ⟨u₄, hstore₄, hagree₄, -⟩ :=
    storeWord_push (w := ret) hm₃ (by omega : (esp - 4 - 4).toNat ≤ 0x8000000) (by omega)
  -- Nothing of this touches the block.
  have hkept : Agree u u₄ (Within esp procUserStackTopVaddr) := by
    have hbase : (0x7FFC000 : UInt32).toNat = 0x7FFC000 := rfl
    apply (hagree₁.within (by omega) le_rfl).trans
    apply (hagree₂.spared le_rfl).trans
    apply (hagree₃.spared (by omega)).trans
    exact hagree₄.spared (by omega)
  obtain ⟨hargs, hvars⟩ := hblock u₄ hkept
  refine ⟨u₄, esp - 4 - 4 - 4, ?_, ?_, ?_, ?_⟩
  · simp only [start, hscan, Option.bind_eq_bind, Option.bind_some, hedx, hstore₁, hstore₂,
      hstore₃, hstore₄]
    rfl
  · refine ⟨UInt32.ofNat argv.length, ?_, UInt32.toNat_ofNat_of_lt' (by
      have hsize : UInt32.size = 2 ^ 32 := rfl
      omega)⟩
    rw [UInt32.sub_add_cancel]
    apply load32_of_holds
    exact hargc.pushed (by rw [hword]; omega) hagree₄
  · refine ⟨esp, ?_, hargs⟩
    have hat : esp - 4 - 4 - 4 + 8 = esp - 4 := by grind
    rw [hat]
    apply load32_of_holds
    exact hargv.pushed (by rw [hword]; omega) (hagree₃.trans (hagree₄.mono fun a => Spared.mono (by omega)))
  · refine ⟨edx, ?_, hedx' ▸ hvars⟩
    apply load32_of_holds
    have hdata₁ := hdata.agree hagree₁
    have henviron₂ := henviron.spared hdata₁ htop hagree₂
    have henviron₃ := henviron₂.spared (hdata₁.agree hagree₂) (by omega) hagree₃
    exact henviron₃.spared ((hdata₁.agree hagree₂).agree hagree₃) (by omega) hagree₄

end UserSpace

/-! ## Runs of the kernel -/

namespace Kernel

variable {k k₀ k₁ k₂ k' : Kernel} {a : ProcPtr} {p p' : Proc} {e : Event} {es : List Event}
variable {C : Kernel → Event → Prop} {genkan : Image}

/-- No line is due to a process that has never run. -/
def StartsClean (k : Kernel) : Prop :=
  ∀ a p, k.heap a = some p → p.procState = .starting → p.stdinKernelBuf = false

theorem StartsClean.boot (h : boot genkan = .ok k) : k.StartsClean := by
  simp only [Kernel.boot, bind_eq_ok, pure_eq_ok, Prod.exists] at h
  obtain ⟨k₁, pid, hload, rfl⟩ := h
  intro a p hp _
  rcases (elfLoad_carried hload).proc a p hp with ⟨q, hq, -⟩ | ⟨-, -, hno⟩
  · cases hq
  · exact hno

theorem StartsClean.step (h : k.StartsClean) (hstep : k.step e = .ok k') : k'.StartsClean := by
  intro a p' hp' hs
  by_cases hkey : ∃ scancode, e = .key scancode
  · obtain ⟨scancode, rfl⟩ := hkey
    rcases step_key_heap hstep hp' with hsame | ⟨-, hready, -⟩
    · exact h a p' hsame hs
    · rw [hready] at hs
      cases hs
  · rcases (step_lines hstep (not_exists.1 hkey)).proc a p' hp' with ⟨p, hp, hcase, -⟩ | ⟨-, -, hno⟩
    · rcases hcase with hsame | hcopied
      · exact hsame.buf.trans (h a p hp (hsame.starting hs))
      · exact hcopied.done
    · exact hno

theorem StartsClean.run (h : k.StartsClean) (hrun : Run (Guarded C Kernel.step) k es k') :
    k'.StartsClean :=
  hrun.invariant (fun _ _ _ hst hs => hs.step hst.2) h

/-- The dispatch of a process that has never run. -/
theorem schedulerCore_layout (hdrop : k.dropZombieCurrent = .ok k₁)
    (hpick : k₁.pickNextReadyProc = .ok (k₂, some a)) (hp : k.heap a = some p)
    (hstart : p.procState = .starting) (hline : p.stdinKernelBuf = false) :
    k.schedulerCore = layoutArgs p >>= fun p' => .ok ((k₂.switchTo a).set a p', .proc a) := by
  obtain ⟨cur, head₁, hk₁⟩ := dropZombieCurrent_spec hdrop
  obtain ⟨⟨head, hk₂⟩, -⟩ := pickNextReadyProc_spec hpick
  have hne : k.procs.length ≠ 0 := by
    intro hnil
    simp only [pickNextReadyProc, hk₁, hnil, pickLoop] at hpick
    simp at hpick
  have hderef : (k₂.switchTo a).deref a = .ok p := by
    rw [deref_eq_ok, ← hp, hk₂, hk₁]
    rfl
  have hflush : (k₂.switchTo a).schedFlushProcBufs a = .ok (k₂.switchTo a) := by
    rw [schedFlushProcBufs, hderef, ok_bind, hline]
    rfl
  rw [schedulerCore, if_neg hne, hdrop, ok_bind, hpick, ok_bind]
  simp only [hflush, ok_bind, hderef, if_pos hstart]
  rfl

theorem schedulerCore_starts (hdrop : k.dropZombieCurrent = .ok k₁)
    (hpick : k₁.pickNextReadyProc = .ok (k₂, some a)) (hp : k.heap a = some p)
    (hstart : p.procState = .starting) (hline : p.stdinKernelBuf = false)
    (hlayout : layoutArgs p = .ok p') :
    k.schedulerCore = .ok ((k₂.switchTo a).set a p', .proc a) := by
  rw [schedulerCore_layout hdrop hpick hp hstart hline, hlayout, ok_bind]

theorem pickNextReadyProc_single (hprocs : k.procs = [a]) (hp : k.heap a = some p)
    (hskip : p.skipped = false) :
    k.pickNextReadyProc = .ok ({ k with procsHead := 0 }, some a) := by
  simp only [pickNextReadyProc, hprocs, List.length_singleton, pickLoop, Nat.mod_one,
    List.getElem?_cons_zero, deref_eq_ok.2 hp, ok_bind, hskip]
  rfl

/-- The first process, at its first dispatch. -/
theorem boot_picks (genkan : Image) :
    ∃ k k₁ k₂ p, Kernel.boot genkan = .ok k ∧ k.dropZombieCurrent = .ok k₁ ∧
      k₁.pickNextReadyProc = .ok (k₂, some 1) ∧ k.heap 1 = some p ∧ p.procState = .starting ∧
      p.argv = genkan.argv ∧ p.env = genkan.env ∧ p.space = genkan.space := by
  obtain ⟨k, hboot⟩ : ∃ k, Kernel.boot genkan = .ok k := ⟨_, rfl⟩
  have hk : k.procs = [1] ∧ k.currentProc = none := by
    rw [← Except.ok.inj hboot]
    exact ⟨rfl, rfl⟩
  obtain ⟨hprocs, hcur⟩ := hk
  obtain ⟨p, hp, hstart, hargs⟩ : ∃ p, k.heap 1 = some p ∧ p.procState = .starting ∧
      p.argv = genkan.argv ∧ p.env = genkan.env ∧ p.space = genkan.space := by
    rw [← Except.ok.inj hboot]
    simp [init]
  have hskip : p.skipped = false := by simp [Proc.skipped, hstart]
  refine ⟨k, k, _, p, hboot, ?_, pickNextReadyProc_single hprocs hp hskip, hp, hstart, hargs⟩
  rw [dropZombieCurrent, hcur]
  rfl

/-- A program with its variables at `0x400000`. -/
def argsImage (argv env : List (List UInt8)) : Image where
  entry := 0x401000
  space :=
    { mapped := fun page => page == 0x400 || (decide (0x7FFC ≤ page) && decide (page < 0x8000))
      byte := fun _ => 0 }
  argv := argv
  env := env

end Kernel

end Kaku
