-- SUMMARY: The string library of user programs: comparing, copying, and splitting a string into tokens.
import Kaku.Fault
import Kaku.Lib.Fields
import Mathlib.Tactic.Cases

/-!
# Strings of user programs

`user_fs/lib/string.h`. A string is the bytes in front of its zero byte, and a table is an
array of pointers to strings, some of which may be null. What `malloc` answers is given
from outside.
-/

namespace Kaku

/-- Whether `malloc` has memory, call by call. -/
abbrev Mallocs := Nat → Bool

def Mallocs.next (m : Mallocs) : Mallocs := fun i => m (i + 1)

/-! ## Tables -/

abbrev StrTable := List (Option (List UInt8))

namespace StrTable

def put (t : StrTable) (i : Nat) (s : Option (List UInt8)) : K StrTable :=
  if i < t.length then .ok (t.set i s) else .error .wild

def get (t : StrTable) (i : Nat) : K (Option (List UInt8)) :=
  match t[i]? with
  | some s => .ok s
  | none => .error .wild

/-- Follows the pointer. -/
def str (t : StrTable) (i : Nat) : K (List UInt8) := do
  match ← t.get i with
  | some s => pure s
  | none => .error .wild

end StrTable

/-- `calloc` of a table with all pointers null. -/
def callocTable (n : Nat) (m : Mallocs) : Option StrTable × Mallocs :=
  (if m 0 then some (List.replicate n none) else none, m.next)

/-! ## `string.h` -/

def strcmp : List UInt8 → List UInt8 → Int
  | [], [] => 0
  | c :: _, [] => c.toInt8.toInt
  | [], c :: _ => -c.toInt8.toInt
  | c :: s, d :: t => if c = d then strcmp s t else c.toInt8.toInt - d.toInt8.toInt

def strdup (s : List UInt8) (m : Mallocs) : Option (List UInt8) × Mallocs :=
  (if m 0 then some s else none, m.next)

/-- `__is_delim`. -/
def isDelim (delim : List UInt8) (c : UInt8) : Bool := delim.contains c

/-- The token, and what is kept in `__strtok_save`. The zero byte that ends the token takes
the place of the delimiter behind it. -/
def strtok (save str : Option (List UInt8)) (delim : List UInt8) :
    Option (List UInt8) × Option (List UInt8) :=
  match str.or save with
  | none => (none, save)
  | some str =>
    let str := str.dropWhile (isDelim delim)
    if str = [] then (none, none)
    else
      let token := str.takeWhile (!isDelim delim ·)
      match str.dropWhile (!isDelim delim ·) with
      | [] => (some token, none)
      | _ :: rest => (some token, some rest)

/-- The loop of `strsplit`. Each token is shorter than what was kept before it, so that the
fuel does not run out. -/
def strsplitLoop (sep : List UInt8) :
    (fuel : Nat) → (p save : Option (List UInt8)) → (i : Nat) → StrTable → Mallocs →
      K (Int × StrTable × Mallocs)
  | 0, _, _, _, _, _ => .error .hang
  | _ + 1, none, _, i, parts, m => .ok (i, parts, m)
  | fuel + 1, some p, save, i, parts, m => do
    let (part, m) := strdup p m
    let parts ← parts.put i part
    if part = none then pure (-1, parts, m)
    else
      let (p, save) := strtok save none sep
      strsplitLoop sep fuel p save (i + 1) parts m

def strsplit (s : List UInt8) (parts : StrTable) (sep : List UInt8) (m : Mallocs) :
    K (Int × StrTable × Mallocs) :=
  match strdup s m with
  | (none, m) => .ok (-1, parts, m)
  | (some copy, m) =>
    let (p, save) := strtok none (some copy) sep
    strsplitLoop sep (copy.length + 1) p save 0 parts m

/-! ## Tables with strings at their start -/

variable {s t delim sep pre : List UInt8} {strs : List (List UInt8)} {parts parts' : StrTable}
  {m m' : Mallocs} {i n fuel : Nat} {x : Option (List UInt8)} {r : Int}

namespace StrTable

/-- The first entries of the table. -/
def Starts (t : StrTable) (strs : List (List UInt8)) : Prop := t.take strs.length = strs.map some

theorem Starts.length_le (ht : parts.Starts strs) : strs.length ≤ parts.length := by
  have hlen := congrArg List.length ht
  rw [List.length_take, List.length_map] at hlen
  omega

theorem Starts.nil : parts.Starts [] := rfl

theorem put_ok (hi : i < parts.length) : parts.put i x = .ok (parts.set i x) := if_pos hi

theorem put_wild (hi : parts.length ≤ i) : parts.put i x = .error .wild :=
  if_neg (Nat.not_lt_of_le hi)

/-- A string is put behind those at the start. -/
theorem Starts.put (ht : parts.Starts strs) (hlen : strs.length < parts.length) :
    Starts (parts.set strs.length (some s)) (strs ++ [s]) := by
  unfold Starts at ht ⊢
  rw [List.length_append, List.length_singleton, List.map_append, ← ht, List.take_add_one,
    List.take_set_of_le le_rfl, List.getElem?_set_self hlen]
  rfl

theorem Starts.dropLast (ht : parts.Starts strs) : parts.Starts strs.dropLast := by
  have hlen := ht.length_le
  unfold Starts at ht ⊢
  rw [List.length_dropLast, List.map_dropLast, ← ht]
  rcases Nat.lt_or_ge strs.length (parts.length + 1) with hle | hgt
  · rw [List.dropLast_eq_take, List.length_take, Nat.min_eq_left hlen, List.take_take,
      Nat.min_eq_left (Nat.sub_le _ _)]
  · omega

theorem Starts.get (ht : parts.Starts strs) (hi : i < strs.length) :
    parts.get i = .ok (some (strs[i])) := by
  have hat : parts[i]? = some (some strs[i]) := by
    rw [← List.getElem?_take_of_lt hi, ht, List.getElem?_map, List.getElem?_eq_getElem hi]
    rfl
  simp only [StrTable.get, hat]

theorem Starts.str (ht : parts.Starts strs) (hi : i < strs.length) :
    parts.str i = .ok strs[i] := by
  simp only [StrTable.str, ht.get hi, ok_bind, pure, Except.pure]

end StrTable

/-! ## Comparing -/

theorem toInt8_inj {c d : UInt8} : c.toInt8.toInt = d.toInt8.toInt ↔ c = d := by
  rw [Int8.toInt_inj]
  constructor
  · intro h
    simpa using congrArg Int8.toUInt8 h
  · exact congrArg UInt8.toInt8

theorem strcmp_eq_zero (hs : 0 ∉ s) (ht : 0 ∉ t) : strcmp s t = 0 ↔ s = t := by
  fun_induction strcmp s t with
  | case1 => simp
  | case2 c s =>
    have hc : c ≠ 0 := fun h => hs (h ▸ List.mem_cons_self)
    have hne : c.toInt8.toInt ≠ 0 := fun h => hc (toInt8_inj.1 h)
    simpa using hne
  | case3 c t =>
    have hc : c ≠ 0 := fun h => ht (h ▸ List.mem_cons_self)
    have hne : c.toInt8.toInt ≠ 0 := fun h => hc (toInt8_inj.1 h)
    simpa using hne
  | case4 c s t ih =>
    rw [ih (fun h => hs (List.mem_cons_of_mem _ h)) fun h => ht (List.mem_cons_of_mem _ h)]
    simp
  | case5 c s d t hne =>
    have hdiff : c.toInt8.toInt ≠ d.toInt8.toInt := fun h => hne (toInt8_inj.1 h)
    have hlists : c :: s ≠ d :: t := fun h => hne (List.cons.inj h).1
    simp only [hlists, iff_false]
    omega

/-! ## Tokens -/

/-- `strtok` finds the fields one after the other. -/
theorem strtok_spec (delim : List UInt8) (save str : Option (List UInt8)) :
    match fields (isDelim delim) ((str.or save).getD []) with
    | [] => (strtok save str delim).1 = none
    | f :: fs => (strtok save str delim).1 = some f ∧
        fields (isDelim delim) ((strtok save str delim).2.getD []) = fs := by
  unfold strtok
  cases str.or save with
  | none => simp
  | some s =>
    simp only [Option.getD_some]
    rw [← fields_dropWhile (l := s)]
    cases hstart : s.dropWhile (isDelim delim) with
    | nil => simp
    | cons c r =>
      have hc : ¬ isDelim delim c = true := by
        have hhead := List.head?_dropWhile_not (isDelim delim) s
        simpa [hstart] using hhead
      have hc' : (!isDelim delim c) = true := by simpa using hc
      rw [fields_cons hc, if_neg (List.cons_ne_nil c r),
        List.takeWhile_cons_of_pos (p := (!isDelim delim ·)) hc',
        List.dropWhile_cons_of_pos (p := (!isDelim delim ·)) hc']
      cases hrest : r.dropWhile (!isDelim delim ·) with
      | nil => simp
      | cons d rest =>
        have hd : isDelim delim d = true := by
          have hhead := List.head?_dropWhile_not (!isDelim delim ·) r
          simpa [hrest] using hhead
        exact ⟨rfl, (fields_cons_sep hd).symm⟩

/-- What is left to be found, of which the first token is at hand. -/
def Pending (delim : List UInt8) (p save : Option (List UInt8)) : List (List UInt8) → Prop
  | [] => p = none
  | f :: fs => p = some f ∧ fields (isDelim delim) (save.getD []) = fs

theorem pending_strtok (delim : List UInt8) (save str : Option (List UInt8)) :
    Pending delim (strtok save str delim).1 (strtok save str delim).2
      (fields (isDelim delim) ((str.or save).getD [])) := by
  have hspec := strtok_spec delim save str
  cases hfields : fields (isDelim delim) ((str.or save).getD []) with
  | nil =>
    rw [hfields] at hspec
    exact hspec
  | cons f fs =>
    rw [hfields] at hspec
    exact hspec

/-- `malloc` always has memory. -/
def Mallocs.Granting (m : Mallocs) : Prop := ∀ i, m i = true

theorem Mallocs.Granting.next (hm : m.Granting) : m.next.Granting := fun i => hm (i + 1)

/-! ## Splitting -/

variable {fs done : List (List UInt8)} {p save : Option (List UInt8)}

/-- Where the table has room the tokens are put into it, unless `malloc` fails. -/
theorem strsplitLoop_spec (hp : Pending sep p save fs) (hfuel : fs.length < fuel)
    (hparts : parts.Starts done) (hroom : done.length + fs.length ≤ parts.length) :
    ∃ r parts' m', strsplitLoop sep fuel p save done.length parts m = .ok (r, parts', m') ∧
      (r = -1 ∨ r = (done.length + fs.length : Nat) ∧ parts'.Starts (done ++ fs)) ∧
      (m.Granting → r ≠ -1 ∧ m'.Granting) := by
  induction fs generalizing fuel p save done parts m with
  | nil =>
    obtain ⟨fuel, rfl⟩ : ∃ n, fuel = n + 1 := ⟨fuel - 1, by omega⟩
    have hnone : p = none := hp
    subst hnone
    refine ⟨_, _, _, rfl, .inr ⟨rfl, ?_⟩, fun hm => ⟨by omega, hm⟩⟩
    rwa [List.append_nil]
  | cons f fs ih =>
    obtain ⟨fuel, rfl⟩ : ∃ n, fuel = n + 1 := ⟨fuel - 1, by omega⟩
    obtain ⟨rfl, hrest⟩ := hp
    rw [List.length_cons] at hfuel hroom
    have hput (x : Option (List UInt8)) : parts.put done.length x = .ok (parts.set done.length x) :=
      StrTable.put_ok (by omega)
    unfold strsplitLoop
    simp only [hput, ok_bind]
    by_cases hgrant : m 0 = true
    · have hpending := pending_strtok sep save none
      rw [Option.none_or, hrest] at hpending
      have hnext : (done ++ [f]).length + fs.length ≤ (parts.set done.length (some f)).length := by
        rw [List.length_set, List.length_append, List.length_singleton]
        omega
      obtain ⟨r, parts', m', hloop, hr, hm'⟩ := ih (m := m.next) hpending
        (Nat.lt_of_succ_lt_succ hfuel) (hparts.put (by omega)) hnext
      simp only [strdup, hgrant, if_true, reduceCtorEq, if_false]
      rw [List.length_append, List.length_singleton] at hloop
      refine ⟨r, parts', m', hloop, ?_, fun hm => hm' hm.next⟩
      rw [List.append_assoc, List.singleton_append] at hr
      simpa [Nat.add_assoc, Nat.add_comm 1] using hr
    · simp only [strdup, if_neg hgrant, if_true]
      exact ⟨_, _, _, rfl, .inl rfl, fun hm => absurd (hm 0) hgrant⟩

/-- Where it has not, a token is put behind its end, as long as `malloc` has memory. -/
theorem strsplitLoop_wild (hp : Pending sep p save fs) (hfuel : fs.length < fuel)
    (hparts : parts.Starts done) (hfull : parts.length < done.length + fs.length) (hm : m.Granting) :
    strsplitLoop sep fuel p save done.length parts m = .error .wild := by
  induction fs generalizing fuel p save done parts m with
  | nil =>
    have hle := hparts.length_le
    rw [List.length_nil] at hfull
    omega
  | cons f fs ih =>
    obtain ⟨fuel, rfl⟩ : ∃ n, fuel = n + 1 := ⟨fuel - 1, by omega⟩
    obtain ⟨rfl, hrest⟩ := hp
    rw [List.length_cons] at hfuel hfull
    unfold strsplitLoop
    rcases Nat.lt_or_ge done.length parts.length with hroom | hend
    · have hpending := pending_strtok sep save none
      rw [Option.none_or, hrest] at hpending
      have hnext : (parts.set done.length (some f)).length < (done ++ [f]).length + fs.length := by
        rw [List.length_set, List.length_append, List.length_singleton]
        omega
      have hloop := ih hpending (Nat.lt_of_succ_lt_succ hfuel) (hparts.put hroom) hnext hm.next
      rw [List.length_append, List.length_singleton] at hloop
      simp only [StrTable.put_ok hroom, ok_bind, strdup, hm 0, if_true, reduceCtorEq, if_false]
      exact hloop
    · simp only [StrTable.put_wild hend, error_bind]

theorem fields_fuel : (fields (isDelim sep) s).length < s.length + 1 :=
  Nat.lt_succ_of_le (length_fields_le s)

/-- A string is split into its fields. -/
theorem strsplit_spec (m : Mallocs) (hroom : (fields (isDelim sep) s).length ≤ parts.length) :
    ∃ r parts' m', strsplit s parts sep m = .ok (r, parts', m') ∧
      (r = -1 ∨ r = (fields (isDelim sep) s).length ∧ parts'.Starts (fields (isDelim sep) s)) ∧
      (m.Granting → r ≠ -1 ∧ m'.Granting) := by
  unfold strsplit
  by_cases hgrant : m 0 = true
  · have hpending := pending_strtok sep none (some s)
    rw [Option.some_or, Option.getD_some] at hpending
    obtain ⟨r, parts', m', hloop, hr, hm'⟩ := strsplitLoop_spec (m := m.next) hpending fields_fuel
      .nil (by simpa using hroom)
    simp only [strdup, hgrant, if_true]
    refine ⟨r, parts', m', hloop, by simpa using hr, fun hm => hm' hm.next⟩
  · simp only [strdup, if_neg hgrant]
    exact ⟨_, _, _, rfl, .inl rfl, fun hm => absurd (hm 0) hgrant⟩

/-- The table is not told to `strsplit`. -/
theorem strsplit_wild (hfull : parts.length < (fields (isDelim sep) s).length) (hm : m.Granting) :
    strsplit s parts sep m = .error .wild := by
  have hpending := pending_strtok sep none (some s)
  rw [Option.some_or, Option.getD_some] at hpending
  unfold strsplit
  simp only [strdup, hm 0, if_true]
  exact strsplitLoop_wild hpending fields_fuel .nil (by simpa using hfull) hm.next

end Kaku
