-- SUMMARY: The memory of a user program as objects: blocks of characters and of pointers, and the strings in them.
import Kaku.Fault
import Kaku.Mm.Heap
import Kaku.User.Strings

/-!
# Memory as objects

Each array of the program and each block from `malloc` is an object, and a pointer to a
character is an object and an offset. A cell that has not been written since `malloc` has
nothing in it, and to read it is a fault, like an access outside of the object or after
`free`.
-/

namespace Kaku

structure Ptr where
  obj : Nat
  off : Nat
  deriving DecidableEq

inductive Object
  | chars (cells : List (Option UInt8))
  | ptrs (cells : List (Option (Option Ptr)))
  | freed
  deriving DecidableEq

abbrev Objects := List Object

/-! ## Cells -/

section
variable {α : Type}

def cell (cells : List (Option α)) (i : Nat) : K α :=
  match cells[i]? with
  | some (some a) => .ok a
  | _ => .error .wild

def putCell (cells : List (Option α)) (i : Nat) (a : α) : K (List (Option α)) :=
  if i < cells.length then .ok (cells.set i (some a)) else .error .wild

end

/-! ## Accesses -/

namespace Objects

def chars (o : Objects) (b : Nat) : K (List (Option UInt8)) :=
  match o[b]? with
  | some (.chars cells) => .ok cells
  | _ => .error .wild

def ptrs (o : Objects) (b : Nat) : K (List (Option (Option Ptr))) :=
  match o[b]? with
  | some (.ptrs cells) => .ok cells
  | _ => .error .wild

/-- `p[i]`. -/
def char (o : Objects) (p : Ptr) (i : Nat) : K UInt8 := do
  let cells ← o.chars p.obj
  cell cells (p.off + i)

def putChar (o : Objects) (b i : Nat) (c : UInt8) : K Objects := do
  let cells ← o.chars b
  let cells ← putCell cells i c
  pure (o.set b (.chars cells))

def ptr (o : Objects) (b i : Nat) : K (Option Ptr) := do
  let cells ← o.ptrs b
  cell cells i

def putPtr (o : Objects) (b i : Nat) (p : Option Ptr) : K Objects := do
  let cells ← o.ptrs b
  let cells ← putCell cells i p
  pure (o.set b (.ptrs cells))

/-- The new object is the last one. -/
def mallocChars (o : Objects) (size : Nat) : Objects := o ++ [.chars (List.replicate size none)]

/-- A pointer is four bytes long. -/
def mallocPtrs (o : Objects) (size : Nat) : Objects := o ++ [.ptrs (List.replicate (size / 4) none)]

def free (o : Objects) (b : Nat) : Objects := o.set b .freed

/-! ## Strings -/

/-- The loop of `strlen`, on the cells from the pointer on. -/
def strlenFrom : List (Option UInt8) → K Nat
  | some c :: cells => if c = 0 then .ok 0 else do
    let n ← strlenFrom cells
    pure (n + 1)
  | _ => .error .wild

def strlen (o : Objects) (p : Ptr) : K Nat := do
  let cells ← o.chars p.obj
  strlenFrom (cells.drop p.off)

/-- `for (i = 0; i < left; ++i) entry[k++] = p[i];` -/
def copyChars (b : Nat) (p : Ptr) : (left i k : Nat) → Objects → K (Nat × Objects)
  | 0, _, k, o => .ok (k, o)
  | left + 1, i, k, o => do
    let c ← o.char p i
    let o ← o.putChar b k c
    copyChars b p left (i + 1) (k + 1) o

/-- The pointer points to the string. -/
def Str (o : Objects) (p : Ptr) (s : List UInt8) : Prop :=
  0 ∉ s ∧ ∃ cells, o.chars p.obj = .ok cells ∧ (s ++ [0]).map some <+: cells.drop p.off

end Objects

/-! ## Objects that are being filled -/

section
variable {α : Type}

/-- The start of the object has been written. -/
def written (done : List α) (cells : List (Option α)) : List (Option α) :=
  done.map some ++ cells.drop done.length

/-- The object is new. -/
def filled (done : List α) (size : Nat) : List (Option α) := written done (List.replicate size none)

variable {done : List α} {cells : List (Option α)} {size : Nat} {a : α}

theorem written_nil : written [] cells = cells := rfl

/-- The next cell is written, if there is one. -/
theorem putCell_written : putCell (written done cells) done.length a =
    if done.length < cells.length then .ok (written (done ++ [a]) cells) else .error .wild := by
  have hlen : (written done cells).length = done.length + (cells.length - done.length) := by
    rw [written, List.length_append, List.length_map, List.length_drop]
  unfold putCell
  rw [hlen]
  by_cases hroom : done.length < cells.length
  · rw [if_pos hroom, if_pos (by omega), written, written, List.drop_eq_getElem_cons hroom,
      List.set_append_right _ _ (by rw [List.length_map]), List.length_map, Nat.sub_self,
      List.set_cons_zero, List.map_append, List.append_assoc, List.length_append,
      List.length_singleton]
    rfl
  · rw [if_neg hroom, if_neg (by omega)]

/-- Behind the start everything is as it was. -/
theorem cell_written {i : Nat} (hi : done.length ≤ i) : cell (written done cells) i = cell cells i := by
  have hget : (written done cells)[i]? = cells[i]? := by
    rw [written, List.getElem?_append_right (by rwa [List.length_map]), List.length_map,
      List.getElem?_drop, Nat.add_sub_cancel' hi]
  unfold cell
  rw [hget]

theorem putCell_filled : putCell (filled done size) done.length a =
    if done.length < size then .ok (filled (done ++ [a]) size) else .error .wild := by
  rw [filled, putCell_written, List.length_replicate, filled]

end

/-! ## What is read -/

namespace Objects

variable {o l : Objects} {p : Ptr} {s done : List UInt8} {b i k left size : Nat} {c : UInt8}

theorem chars_append {cells : List (Option UInt8)} (h : o.chars b = .ok cells) :
    Objects.chars (o ++ l) b = .ok cells := by
  unfold chars at h ⊢
  cases hb : o[b]? with
  | none => simp [hb] at h
  | some x => rwa [List.getElem?_append_left (List.getElem?_eq_some_iff.1 hb).1]

theorem ptrs_append {cells : List (Option (Option Ptr))} (h : o.ptrs b = .ok cells) :
    Objects.ptrs (o ++ l) b = .ok cells := by
  unfold ptrs at h ⊢
  cases hb : o[b]? with
  | none => simp [hb] at h
  | some x => rwa [List.getElem?_append_left (List.getElem?_eq_some_iff.1 hb).1]

theorem chars_last {cells : List (Option UInt8)} :
    Objects.chars (o ++ [.chars cells]) o.length = .ok cells := by
  simp [chars]

theorem ptrs_last {cells : List (Option (Option Ptr))} :
    Objects.ptrs (o ++ [.ptrs cells]) o.length = .ok cells := by
  simp [ptrs]

theorem Str.append (h : o.Str p s) : Objects.Str (o ++ l) p s := by
  obtain ⟨hzero, cells, hcells, hpre⟩ := h
  exact ⟨hzero, cells, chars_append hcells, hpre⟩

theorem Str.char (h : o.Str p s) (hi : (s ++ [0])[i]? = some c) : o.char p i = .ok c := by
  obtain ⟨-, cells, hcells, rest, hrest⟩ := h
  have hat : cells[p.off + i]? = some (some c) := by
    rw [← List.getElem?_drop, ← hrest]
    have hlt := (List.getElem?_eq_some_iff.1 hi).1
    rw [List.getElem?_append_left (by rwa [List.length_map]), List.getElem?_map, hi]
    rfl
  unfold Objects.char
  rw [hcells, ok_bind, cell, hat]

theorem strlenFrom_spec {rest : List (Option UInt8)} (hzero : 0 ∉ s) :
    strlenFrom ((s ++ [0]).map some ++ rest) = .ok s.length := by
  induction s with
  | nil => rfl
  | cons c s ih =>
    rw [List.mem_cons, not_or] at hzero
    rw [List.cons_append, List.map_cons, List.cons_append, strlenFrom, if_neg (Ne.symm hzero.1),
      ih hzero.2]
    rfl

theorem Str.strlen (h : o.Str p s) : o.strlen p = .ok s.length := by
  obtain ⟨hzero, cells, hcells, rest, hrest⟩ := h
  unfold Objects.strlen
  rw [hcells, ok_bind, ← hrest, strlenFrom_spec hzero]

/-- A pointer into a string. -/
theorem Str.drop (h : o.Str p s) (hi : i ≤ s.length) : o.Str ⟨p.obj, p.off + i⟩ (s.drop i) := by
  obtain ⟨hzero, cells, hcells, rest, hrest⟩ := h
  refine ⟨fun hmem => hzero (List.mem_of_mem_drop hmem), cells, hcells, rest, ?_⟩
  rw [← List.drop_drop, ← hrest, List.drop_append_of_le_length (by simp; omega), ← List.map_drop,
    List.drop_append_of_le_length hi]

/-! ## What is written -/

/-- The next character of the last object. -/
theorem putChar_last : Objects.putChar (o ++ [.chars (filled done size)]) o.length done.length c =
    if done.length < size then .ok (o ++ [.chars (filled (done ++ [c]) size)])
    else .error .wild := by
  unfold putChar
  rw [chars_last, ok_bind, putCell_filled]
  split <;> simp [pure, Except.pure]

/-- The next pointer of the last object. -/
theorem putPtr_last {done : List (Option Ptr)} {q : Option Ptr} :
    Objects.putPtr (o ++ [.ptrs (filled done size)]) o.length done.length q =
      if done.length < size then .ok (o ++ [.ptrs (filled (done ++ [q]) size)])
      else .error .wild := by
  unfold putPtr
  rw [ptrs_last, ok_bind, putCell_filled]
  split <;> simp [pure, Except.pure]

/-- A string that is copied into the last object stands behind what is there, if there is room
for it. -/
theorem copyChars_last (hs : o.Str p s) (hi : i + left = s.length) :
    copyChars o.length p left i done.length (o ++ [.chars (filled done size)]) =
      if left = 0 ∨ done.length + left ≤ size then
        .ok (done.length + left, o ++ [.chars (filled (done ++ s.drop i) size)])
      else .error .wild := by
  induction left generalizing i done with
  | zero =>
    rw [Nat.add_zero] at hi
    rw [hi, List.drop_length, List.append_nil, if_pos (.inl rfl)]
    rfl
  | succ left ih =>
    have hlt : i < s.length := by omega
    have hchar : Objects.char (o ++ [.chars (filled done size)]) p i = .ok s[i] := by
      refine hs.append.char ?_
      rw [List.getElem?_append_left hlt, List.getElem?_eq_getElem hlt]
    unfold copyChars
    rw [hchar, ok_bind, putChar_last]
    by_cases hroom : done.length < size
    · have hnext := @ih (done ++ [s[i]]) (i + 1) (by omega)
      rw [List.length_append, List.length_singleton, List.append_assoc, List.singleton_append,
        ← List.drop_eq_getElem_cons hlt, Nat.add_assoc, Nat.add_comm 1] at hnext
      rw [if_pos hroom, ok_bind, hnext]
      refine if_congr ?_ rfl rfl
      omega
    · rw [if_neg hroom, if_neg (by omega)]
      rfl

end Objects

end Kaku
