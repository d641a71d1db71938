-- SUMMARY: The environment of a user program: `getenv` and `setenv`, and the map that they are together.
import Kaku.Lib.Keyed
import Kaku.User.Objects
import Mathlib.Data.List.Forall2
import Mathlib.Data.Option.Basic

/-!
# The environment

`getenv` and `setenv` of `user_fs/lib/stdlib.h`. `environ` is an array of pointers to
strings `name=value` with a null pointer at its end. `setenv` makes a new string and a new
array; those that it takes the place of are not freed.
-/

namespace Kaku

/-- `'='`. -/
def equals : UInt8 := 0x3D

structure Env where
  objects : Objects
  environ : Nat
  deriving DecidableEq

/-! ## `getenv` -/

/-- The loop `while (j < nlen && p[j] == name[j]) j++;`. -/
def matchChars (o : Objects) (p name : Ptr) : (left j : Nat) → K Nat
  | 0, j => .ok j
  | left + 1, j => do
    let a ← o.char p j
    let b ← o.char name j
    if a = b then matchChars o p name left (j + 1) else pure j

/-- `j == nlen && p[j] == '='`, behind the loop. -/
def entryMatches (o : Objects) (p name : Ptr) (nlen : Nat) : K Bool := do
  let j ← matchChars o p name nlen 0
  if j = nlen then do
    let c ← o.char p j
    pure (c == equals)
  else pure false

/-- The loop over `environ`, on the cells from `environ[i]` on. -/
def getenvLoop (o : Objects) (name : Ptr) (nlen : Nat) :
    List (Option (Option Ptr)) → K (Option Ptr)
  | some (some p) :: cells => do
    if ← entryMatches o p name nlen then pure (some ⟨p.obj, p.off + nlen + 1⟩)
    else getenvLoop o name nlen cells
  | some none :: _ => .ok none
  | _ => .error .wild

def Env.getenv (e : Env) (name : Ptr) : K (Option Ptr) := do
  let nlen ← e.objects.strlen name
  let cells ← e.objects.ptrs e.environ
  getenvLoop e.objects name nlen cells

/-! ## `setenv` -/

/-- The loop that counts the entries and finds the one to replace. -/
def countLoop (o : Objects) (name : Ptr) (nlen : Nat) :
    List (Option (Option Ptr)) → (i cnt : Nat) → (replace : Int) → K (Nat × Int)
  | some (some p) :: cells, i, cnt, replace => do
    let found ← entryMatches o p name nlen
    countLoop o name nlen cells (i + 1) (cnt + 1) (if found then i else replace)
  | some none :: _, _, cnt, replace => .ok (cnt, replace)
  | _, _, _, _ => .error .wild

/-- The loop that takes over the other entries. -/
def keepLoop (environ newenv : Nat) (replace : Int) : (left i w : Nat) → Objects → K (Nat × Objects)
  | 0, _, w, o => .ok (w, o)
  | left + 1, i, w, o =>
    if (i : Int) ≠ replace then do
      let p ← o.ptr environ i
      let o ← o.putPtr newenv w p
      keepLoop environ newenv replace left (i + 1) (w + 1) o
    else keepLoop environ newenv replace left (i + 1) w o

/-- The new entry is the object `entry`. -/
def writeEntry (name value : Ptr) (nlen vlen entry : Nat) (o : Objects) : K Objects := do
  let (k, o) ← o.copyChars entry name nlen 0 0
  let o ← o.putChar entry k equals
  let (k, o) ← o.copyChars entry value vlen 0 (k + 1)
  o.putChar entry k 0

/-- The new array is the object `newenv`. -/
def writeArray (environ newenv entry cnt : Nat) (replace : Int) (o : Objects) : K Objects := do
  let (w, o) ← keepLoop environ newenv replace cnt 0 0 o
  let o ← o.putPtr newenv w (some ⟨entry, 0⟩)
  o.putPtr newenv (w + 1) none

def Env.setenv (e : Env) (name value : Ptr) (m : Mallocs) : K (Int × Env × Mallocs) := do
  let nlen ← e.objects.strlen name
  let vlen ← e.objects.strlen value
  if m 0 then do
    let entry := e.objects.length
    let o := e.objects.mallocChars (addr32 (nlen + 1 + vlen + 1))
    let o ← writeEntry name value nlen vlen entry o
    let cells ← o.ptrs e.environ
    let (cnt, replace) ← countLoop o name nlen cells 0 0 (-1)
    let newcnt := if 0 ≤ replace then cnt else cnt + 1
    if m 1 then do
      let newenv := o.length
      let o := o.mallocPtrs (addr32 ((newcnt + 1) * 4))
      let o ← writeArray e.environ newenv entry cnt replace o
      pure (0, ⟨o, newenv⟩, m.next.next)
    else pure (-1, { e with objects := o.free entry }, m.next.next)
  else pure (-1, e, m.next)

/-! ## The entries -/

/-- The name of an entry ends at the first `=`. -/
def nameOf (x : List UInt8) : List UInt8 := x.takeWhile (· ≠ equals)

def valueOf (x : List UInt8) : List UInt8 := (x.dropWhile (· ≠ equals)).tail

/-- The entries have the form `name=value`, and their names are distinct. -/
structure EnvEntries (es : List (List UInt8)) : Prop where
  form : ∀ x ∈ es, equals ∈ x
  names : (es.map nameOf).Nodup

/-- What the map has for the name. -/
def valueIn (es : List (List UInt8)) (n : List UInt8) : Option (List UInt8) :=
  (Keyed.lookup nameOf es n).map valueOf

/-- The pointers in front of the null pointer. -/
def pointers : List (Option (Option Ptr)) → K (List Ptr)
  | some (some p) :: cells => do
    let ps ← pointers cells
    pure (p :: ps)
  | some none :: _ => .ok []
  | _ => .error .wild

/-- `environ` is an array of pointers to the entries with a null pointer behind them. -/
def Env.Holds (e : Env) (es : List (List UInt8)) : Prop :=
  ∃ cells ps, e.objects.ptrs e.environ = .ok cells ∧ pointers cells = .ok ps ∧
    List.Forall₂ e.objects.Str ps es

variable {o l : Objects} {p q name value : Ptr} {n v x : List UInt8} {es : List (List UInt8)}
  {cells : List (Option (Option Ptr))} {ps : List Ptr} {i j left cnt size : Nat} {replace : Int}

/-! ## Names -/

theorem ne_equals (hn : equals ∉ n) : ∀ c ∈ n, decide (c ≠ equals) = true := by
  intro c hc
  have hne : c ≠ equals := fun h => hn (h ▸ hc)
  simpa using hne

theorem nameOf_append (hn : equals ∉ n) : nameOf (n ++ equals :: v) = n := by
  unfold nameOf
  rw [List.takeWhile_append_of_pos (ne_equals hn)]
  simp

theorem valueOf_append (hn : equals ∉ n) : valueOf (n ++ equals :: v) = v := by
  unfold valueOf
  rw [List.dropWhile_append_of_pos (ne_equals hn)]
  simp

/-- A string of the form `name=value` is put together from its parts. -/
theorem eq_of_form (hx : equals ∈ x) : x = nameOf x ++ equals :: valueOf x := by
  unfold nameOf valueOf
  induction x with
  | nil => cases hx
  | cons c x ih =>
    by_cases hc : c = equals
    · subst hc
      simp
    · have hrest : equals ∈ x := (List.mem_cons.1 hx).resolve_left (Ne.symm hc)
      rw [List.takeWhile_cons_of_pos (by simpa using hc),
        List.dropWhile_cons_of_pos (by simpa using hc), List.cons_append, ← ih hrest]

/-- The prefixes `name=` of an entry. -/
theorem prefix_iff (hn : equals ∉ n) (hx : equals ∈ x) : n ++ [equals] <+: x ↔ nameOf x = n := by
  constructor
  · rintro ⟨rest, rfl⟩
    rw [List.append_assoc]
    exact nameOf_append hn
  · rintro rfl
    refine ⟨valueOf x, ?_⟩
    rw [List.append_assoc]
    exact (eq_of_form hx).symm

/-! ## One entry -/

/-- The loop ends with `nlen` if the entry starts with the name. -/
theorem matchChars_spec (hx : o.Str p x) (hn : o.Str q n) (hleft : j + left = n.length)
    (hj : j ≤ x.length) :
    ∃ k, matchChars o p q left j = .ok k ∧ (k = n.length ↔ n.drop j <+: x.drop j) := by
  induction left generalizing j with
  | zero =>
    obtain rfl : j = n.length := hleft
    exact ⟨n.length, rfl, by simp⟩
  | succ left ih =>
    have hlt : j < n.length := by omega
    have hname : o.char q j = .ok n[j] := by
      refine hn.char ?_
      rw [List.getElem?_append_left hlt, List.getElem?_eq_getElem hlt]
    have hzero : n[j] ≠ 0 := fun h => hn.1 (h ▸ List.getElem_mem hlt)
    unfold matchChars
    rw [List.drop_eq_getElem_cons hlt]
    rcases Nat.lt_or_ge j x.length with hin | hend
    · have hentry : o.char p j = .ok x[j] := by
        refine hx.char ?_
        rw [List.getElem?_append_left hin, List.getElem?_eq_getElem hin]
      rw [hentry, hname, ok_bind, ok_bind, List.drop_eq_getElem_cons hin, List.cons_prefix_cons]
      by_cases hsame : x[j] = n[j]
      · obtain ⟨k, hk, hiff⟩ := ih (show j + 1 + left = n.length by omega) hin
        exact ⟨k, by rw [if_pos hsame, hk], by rw [hiff, and_iff_right hsame.symm]⟩
      · exact ⟨j, if_neg hsame, fun h => absurd h hlt.ne, fun h => absurd h.1.symm hsame⟩
    · -- the entry has ended
      obtain rfl : j = x.length := by omega
      have hentry : o.char p x.length = .ok 0 := hx.char (by simp)
      rw [hentry, hname, ok_bind, ok_bind, List.drop_length, if_neg (Ne.symm hzero)]
      refine ⟨x.length, rfl, ?_⟩
      rw [List.prefix_nil]
      exact ⟨fun h => absurd h hlt.ne, fun h => nomatch h⟩

theorem entryMatches_spec (hx : o.Str p x) (hn : o.Str q n) :
    entryMatches o p q n.length = .ok (decide (n ++ [equals] <+: x)) := by
  obtain ⟨k, hk, hiff⟩ := matchChars_spec hx hn (Nat.zero_add _) (Nat.zero_le _)
  rw [List.drop_zero, List.drop_zero] at hiff
  unfold entryMatches
  rw [hk, ok_bind]
  by_cases hpre : n <+: x
  · obtain ⟨rest, rfl⟩ := hpre
    have hchar : o.char p n.length = .ok ((rest ++ [0]).headD 0) := by
      refine hx.char ?_
      rw [List.append_assoc, List.getElem?_append_right le_rfl, Nat.sub_self]
      cases rest <;> rfl
    have hhead : n ++ [equals] <+: n ++ rest ↔ (rest ++ [0]).headD 0 = equals := by
      rw [List.prefix_append_right_inj]
      cases rest with
      | nil => simp [equals]
      | cons c rest => simp [eq_comm]
    rw [hiff.2 (List.prefix_append _ _), if_pos rfl, hchar, ok_bind, decide_eq_decide.2 hhead]
    rfl
  · have hshort : ¬ n ++ [equals] <+: x := fun h => hpre ((List.prefix_append _ _).trans h)
    rw [if_neg fun h => hpre (hiff.1 h), decide_eq_false hshort]
    rfl

theorem entryMatches_entry (hx : o.Str p x) (hn : o.Str q n) (heq : equals ∉ n)
    (hform : equals ∈ x) : entryMatches o p q n.length = .ok (decide (nameOf x = n)) := by
  rw [entryMatches_spec hx hn, decide_eq_decide.2 (prefix_iff heq hform)]

/-! ## The loops -/

theorem pointers_cons (h : pointers cells = .ok (p :: ps)) :
    ∃ rest, cells = some (some p) :: rest ∧ pointers rest = .ok ps := by
  unfold pointers at h
  split at h
  · obtain ⟨ps', hrest, hcons⟩ := bind_eq_ok.1 h
    cases hcons
    exact ⟨_, rfl, hrest⟩
  · cases h
  · cases h

theorem pointers_nil (h : pointers cells = .ok []) : ∃ rest, cells = some none :: rest := by
  unfold pointers at h
  split at h
  · obtain ⟨ps', hrest, hcons⟩ := bind_eq_ok.1 h
    cases hcons
  · exact ⟨_, rfl⟩
  · cases h

theorem getElem?_of_pointers (h : pointers cells = .ok ps) (hi : ps[i]? = some p) :
    cells[i]? = some (some (some p)) := by
  induction ps generalizing cells i with
  | nil => cases hi
  | cons q ps ih =>
    obtain ⟨rest, rfl, hrest⟩ := pointers_cons h
    cases i with
    | zero =>
      cases hi
      rfl
    | succ i =>
      rw [List.getElem?_cons_succ] at hi ⊢
      exact ih hrest hi

/-- The first entry with the name is found. -/
theorem getenvLoop_spec (hn : o.Str q n) (heq : equals ∉ n) (hform : ∀ x ∈ es, equals ∈ x)
    (hps : pointers cells = .ok ps) (hes : List.Forall₂ o.Str ps es) :
    ∃ r, getenvLoop o q n.length cells = .ok r ∧ Option.Rel o.Str r (valueIn es n) := by
  induction hes generalizing cells with
  | nil =>
    obtain ⟨rest, rfl⟩ := pointers_nil hps
    exact ⟨none, rfl, .none⟩
  | @cons p x ps es hx hes ih =>
    obtain ⟨rest, rfl, hrest⟩ := pointers_cons hps
    rw [List.forall_mem_cons] at hform
    unfold getenvLoop
    rw [entryMatches_entry hx hn heq hform.1, ok_bind, valueIn, Keyed.lookup]
    by_cases hname : nameOf x = n
    · rw [decide_eq_true hname, if_pos rfl, List.find?_cons_of_pos (by simpa using hname)]
      refine ⟨_, rfl, .some ?_⟩
      have hdrop : x.drop (n.length + 1) = valueOf x := by
        conv => enter [1, 2]; rw [eq_of_form hform.1]
        rw [← hname]
        simp
      have hlen : n.length + 1 ≤ x.length := by
        rw [eq_of_form hform.1, ← hname]
        simp
      rw [← hdrop, Nat.add_assoc]
      exact hx.drop hlen
    · obtain ⟨r, hr, hrel⟩ := ih hform.2 hrest
      rw [decide_eq_false hname, List.find?_cons_of_neg (by simpa using hname)]
      exact ⟨r, hr, hrel⟩

/-- The last entry with the name is the one to replace. -/
theorem countLoop_spec (hn : o.Str q n) (heq : equals ∉ n) (hform : ∀ x ∈ es, equals ∈ x)
    (hps : pointers cells = .ok ps) (hes : List.Forall₂ o.Str ps es) :
    ∃ r, countLoop o q n.length cells i cnt replace = .ok (cnt + ps.length, r) ∧
      ((r = replace ∧ ∀ x ∈ es, nameOf x ≠ n) ∨
        ∃ j x, es[j]? = some x ∧ nameOf x = n ∧ r = ((i + j : Nat) : Int)) := by
  induction hes generalizing cells i cnt replace with
  | nil =>
    obtain ⟨rest, rfl⟩ := pointers_nil hps
    exact ⟨replace, rfl, .inl ⟨rfl, by simp⟩⟩
  | @cons p x ps es hx hes ih =>
    obtain ⟨rest, rfl, hrest⟩ := pointers_cons hps
    rw [List.forall_mem_cons] at hform
    unfold countLoop
    rw [entryMatches_entry hx hn heq hform.1, ok_bind]
    obtain ⟨r, hr, hcase⟩ := @ih rest (i + 1) (cnt + 1)
      (if decide (nameOf x = n) then (i : Int) else replace) hform.2 hrest
    refine ⟨r, ?_, ?_⟩
    · rw [hr, List.length_cons, Nat.add_assoc, Nat.add_comm 1]
    · rcases hcase with ⟨rfl, hnone⟩ | ⟨j, y, hy, hname, rfl⟩
      · by_cases hname : nameOf x = n
        · exact .inr ⟨0, x, rfl, hname, by simp [hname]⟩
        · refine .inl ⟨by simp [hname], ?_⟩
          rw [List.forall_mem_cons]
          exact ⟨hname, hnone⟩
      · exact .inr ⟨j + 1, y, hy, hname, by omega⟩

/-- The items from index `i` on without the one at `replace`. -/
def others {α : Type} (replace : Int) : (i : Nat) → List α → List α
  | _, [] => []
  | i, a :: l => if (i : Int) ≠ replace then a :: others replace (i + 1) l
    else others replace (i + 1) l

section
variable {α β : Type} {R : α → β → Prop} {l : List α} {k : List β}

theorem others_of_lt (hlt : replace < i) : others replace i l = l := by
  induction l generalizing i with
  | nil => rfl
  | cons a l ih => rw [others, if_pos (by omega), ih (by omega)]

theorem others_eq_eraseIdx : others ((i + j : Nat) : Int) i l = l.eraseIdx j := by
  induction l generalizing i j with
  | nil => rfl
  | cons a l ih =>
    unfold others
    cases j with
    | zero => rw [if_neg (by omega), others_of_lt (by omega), List.eraseIdx_cons_zero]
    | succ j =>
      have hnext : i + (j + 1) = i + 1 + j := by omega
      rw [if_pos (by omega), hnext, ih, List.eraseIdx_cons_succ]

theorem forall₂_others (h : List.Forall₂ R l k) :
    List.Forall₂ R (others replace i l) (others replace i k) := by
  induction h generalizing i with
  | nil => exact .nil
  | cons hab _ ih =>
    unfold others
    split
    · exact .cons hab ih
    · exact ih

end

/-- The pointers that are taken over stand behind what is there, if there is room for them. -/
theorem keepLoop_last {environ : Nat} {done : List (Option Ptr)} {kept : List Ptr}
    (hcells : o.ptrs environ = .ok cells) (hps : pointers cells = .ok ps)
    (hi : i + left = ps.length) (hkept : others replace i (ps.drop i) = kept) :
    keepLoop environ o.length replace left i done.length (o ++ [.ptrs (filled done size)]) =
      if kept = [] ∨ done.length + kept.length ≤ size then
        .ok (done.length + kept.length, o ++ [.ptrs (filled (done ++ kept.map some) size)])
      else .error .wild := by
  induction left generalizing i done kept with
  | zero =>
    rw [Nat.add_zero] at hi
    rw [hi, List.drop_length] at hkept
    subst hkept
    simp [others, keepLoop]
  | succ left ih =>
    have hlt : i < ps.length := by omega
    have hptr : Objects.ptr (o ++ [.ptrs (filled done size)]) environ i = .ok (some ps[i]) := by
      unfold Objects.ptr
      rw [Objects.ptrs_append hcells, ok_bind, cell,
        getElem?_of_pointers hps (List.getElem?_eq_getElem hlt)]
    rw [List.drop_eq_getElem_cons hlt, others] at hkept
    unfold keepLoop
    by_cases hother : (i : Int) ≠ replace
    · rw [if_pos hother] at hkept
      subst hkept
      rw [if_pos hother, hptr, ok_bind, Objects.putPtr_last]
      by_cases hroom : done.length < size
      · have hnext := @ih (i + 1) (done ++ [some ps[i]]) _ (by omega) rfl
        rw [List.length_append, List.length_singleton, List.append_assoc,
          List.singleton_append] at hnext
        rw [if_pos hroom, ok_bind, hnext, List.length_cons, List.map_cons, Nat.add_assoc,
          Nat.add_comm 1]
        refine if_congr ?_ rfl rfl
        constructor
        · rintro (hnil | hle)
          · rw [hnil]
            exact .inr hroom
          · exact .inr hle
        · exact fun h => .inr (h.resolve_left (List.cons_ne_nil _ _))
      · rw [if_neg hroom, if_neg (by simp; omega)]
        rfl
    · rw [if_neg hother] at hkept ⊢
      exact ih (by omega) hkept

end Kaku
