-- SUMMARY: The numerals that user programs print: `itoa` and `itoa_hex`, and the numerals they make.
import Kaku.User.Objects
import Mathlib.Data.Nat.Digits.Lemmas

/-!
# Numerals

`itoa` and `itoa_hex` of `user_fs/lib/string.h`. The digits are written from the end of the
block that `malloc` returns towards its start, and moved to the start afterwards.
-/

namespace Kaku

/-! ## `itoa` and `itoa_hex` -/

/-- The loop that writes one digit in front of the other. -/
def digitsLoop (digit : UInt32 → UInt8) (next : UInt32 → UInt32) :
    (num : UInt32) → (i : Nat) → List (Option UInt8) → K (Nat × List (Option UInt8))
  | num, 0, buf => if num = 0 then .ok (0, buf) else .error .wild
  | num, i + 1, buf =>
    if num = 0 then .ok (i + 1, buf)
    else do
      let buf ← putCell buf i (digit num)
      digitsLoop digit next (next num) i buf

/-- The loop `while (buf[i]) buf[j++] = buf[i++];`, where `left` cells are behind `buf[i]`. -/
def moveLoop : (left i j : Nat) → List (Option UInt8) → K (Nat × List (Option UInt8))
  | 0, _, _, _ => .error .wild
  | left + 1, i, j, buf => do
    let c ← cell buf i
    if c ≠ 0 then do
      let buf ← putCell buf j c
      moveLoop left (i + 1) (j + 1) buf
    else pure (j, buf)

/-- The end of both functions. -/
def moveToStart (i : Nat) (buf : List (Option UInt8)) : K (List (Option UInt8)) := do
  let (j, buf) ← moveLoop (buf.length - i) i 0 buf
  putCell buf j 0

/-- `'0' + (num % 10)`. -/
def decDigit (num : UInt32) : UInt8 := 0x30 + (num % 10).toUInt8

/-- The digits of `itoa`, and `'0'` where the loop writes none. -/
def itoaDigits (num : UInt32) (buf : List (Option UInt8)) : K (Nat × List (Option UInt8)) := do
  let (i, buf) ← if num = 0 then do
      let buf ← putCell buf 10 0x30
      pure (10, buf)
    else pure (11, buf)
  digitsLoop decDigit (· / 10) num i buf

/-- `if (neg) buf[--i] = '-';` -/
def putSign (neg : Bool) : (i : Nat) → List (Option UInt8) → K (Nat × List (Option UInt8))
  | 0, buf => if neg then .error .wild else .ok (0, buf)
  | i + 1, buf =>
    if neg then do
      let buf ← putCell buf i 0x2D
      pure (i, buf)
    else .ok (i + 1, buf)

def itoa (n : Int32) (m : Mallocs) : K (Option (List (Option UInt8)) × Mallocs) :=
  if m 0 then do
    let num := if n < 0 then 0 - n.toUInt32 else n.toUInt32
    let buf ← putCell (List.replicate 12 none) 11 0
    let (i, buf) ← itoaDigits num buf
    let (i, buf) ← putSign (n < 0) i buf
    let buf ← moveToStart i buf
    pure (some buf, m.next)
  else .ok (none, m.next)

/-- `"0123456789ABCDEF"`. -/
def hexDigits : List UInt8 :=
  [0x30, 0x31, 0x32, 0x33, 0x34, 0x35, 0x36, 0x37, 0x38, 0x39, 0x41, 0x42, 0x43, 0x44, 0x45, 0x46]

/-- `hex[n & 0xF]`. -/
def hexDigit (n : UInt32) : UInt8 := hexDigits.getD (n &&& 0xF).toNat 0

def itoaHex (n : UInt32) (m : Mallocs) : K (Option (List (Option UInt8)) × Mallocs) :=
  if m 0 then do
    let buf ← putCell (List.replicate 9 none) 8 0
    let buf ← putCell buf 7 (hexDigit n)
    let (i, buf) ← digitsLoop hexDigit (· >>> 4) (n >>> 4) 7 buf
    let buf ← moveToStart i buf
    pure (some buf, m.next)
  else .ok (none, m.next)

/-! ## Numerals -/

/-- The character of a digit. -/
def digitChar (d : Nat) : UInt8 := if d < 10 then UInt8.ofNat (0x30 + d) else UInt8.ofNat (0x37 + d)

/-- The numeral of a number to a base, the most significant digit first. -/
def numeral (b n : Nat) : List UInt8 :=
  if n = 0 then [digitChar 0] else ((Nat.digits b n).map digitChar).reverse

def decimal (z : Int) : List UInt8 :=
  if z < 0 then 0x2D :: numeral 10 z.natAbs else numeral 10 z.natAbs

def hexadecimal (n : Nat) : List UInt8 := numeral 16 n

variable {b n i j left : Nat} {num : UInt32} {c : UInt8} {s t : List UInt8}
  {buf : List (Option UInt8)} {digit : UInt32 → UInt8} {next : UInt32 → UInt32} {m : Mallocs}

theorem digitChar_ne_zero {d : Nat} (hd : d < 16) : digitChar d ≠ 0 := by
  interval_cases d <;> decide

theorem zero_not_mem_numeral (hb : 1 < b) (hb' : b ≤ 16) : 0 ∉ numeral b n := by
  unfold numeral
  split
  · decide
  · rw [List.mem_reverse, List.mem_map]
    rintro ⟨d, hd, hzero⟩
    exact digitChar_ne_zero ((Nat.digits_lt_base hb hd).trans_le hb') hzero

theorem zero_not_mem_decimal (z : Int) : 0 ∉ decimal z := by
  have hzero : 0 ∉ numeral 10 z.natAbs := zero_not_mem_numeral (by decide) (by decide)
  unfold decimal
  split
  · rw [List.mem_cons, not_or]
    exact ⟨by decide, hzero⟩
  · exact hzero

theorem zero_not_mem_hexadecimal (n : Nat) : 0 ∉ hexadecimal n :=
  zero_not_mem_numeral (by decide) (by decide)

/-- The numeral ends in the last digit, with the numeral of the rest before it. -/
theorem numeral_eq (hb : 1 < b) :
    numeral b n = ((Nat.digits b (n / b)).map digitChar).reverse ++ [digitChar (n % b)] := by
  unfold numeral
  split
  · rename_i hn
    subst hn
    simp
  · rw [Nat.digits_def' hb (by omega), List.map_cons, List.reverse_cons]

/-! ## Writing from the end -/

/-- The buffer ends in the string, from the index on. -/
structure Ends (buf : List (Option UInt8)) (i : Nat) (s : List UInt8) : Prop where
  drop : buf.drop i = s.map some
  len : i + s.length = buf.length

theorem Ends.put (h : Ends buf (i + 1) s) (c : UInt8) :
    ∃ buf', putCell buf i c = .ok buf' ∧ buf'.length = buf.length ∧ Ends buf' i (c :: s) := by
  have hlen := h.len
  have hlt : i < buf.length := by omega
  refine ⟨_, if_pos hlt, List.length_set, ?_, ?_⟩
  · rw [List.drop_eq_getElem_cons (by rwa [List.length_set]), List.getElem_set_self,
      List.drop_set_of_lt (Nat.lt_succ_self i), h.drop, List.map_cons]
  · rw [List.length_set, List.length_cons]
    omega

/-- The digits are written in front of what is there. -/
theorem digitsLoop_spec (hb : 1 < b) (hdigit : ∀ num, digit num = digitChar (num.toNat % b))
    (hnext : ∀ num, (next num).toNat = num.toNat / b) (hends : Ends buf i s)
    (hfit : (Nat.digits b num.toNat).length ≤ i) :
    ∃ i' buf', digitsLoop digit next num i buf = .ok (i', buf') ∧ buf'.length = buf.length ∧
      i' + (Nat.digits b num.toNat).length = i ∧
      Ends buf' i' (((Nat.digits b num.toNat).map digitChar).reverse ++ s) := by
  induction i generalizing num buf s with
  | zero =>
    have hzero : num.toNat = 0 := by
      rwa [Nat.le_zero, List.length_eq_zero_iff, Nat.digits_eq_nil_iff_eq_zero] at hfit
    have hnum : num = 0 := UInt32.toNat_inj.1 hzero
    subst hnum
    exact ⟨0, buf, rfl, rfl, by simp, by simpa using hends⟩
  | succ i ih =>
    unfold digitsLoop
    by_cases hnum : num = 0
    · subst hnum
      exact ⟨i + 1, buf, rfl, rfl, by simp, by simpa using hends⟩
    · have hpos : 0 < num.toNat := Nat.pos_of_ne_zero fun h => hnum (UInt32.toNat_inj.1 h)
      have hdigits := Nat.digits_def' hb hpos
      rw [hdigits, List.length_cons] at hfit
      obtain ⟨buf₁, hput, hlen₁, hends₁⟩ := hends.put (digit num)
      obtain ⟨i', buf₂, hloop, hlen₂, hi', hends₂⟩ := @ih (next num) _ _ hends₁ (by
        rw [hnext]
        omega)
      rw [hnext] at hi' hends₂
      refine ⟨i', buf₂, ?_, hlen₂.trans hlen₁, ?_, ?_⟩
      · rw [if_neg hnum, hput, ok_bind, hloop]
      · rw [hdigits, List.length_cons]
        omega
      · rw [hdigits, List.map_cons, List.reverse_cons, List.append_assoc, ← hdigit]
        exact hends₂

/-! ## Moving to the start -/

theorem Ends.cell (h : Ends buf i (c :: s)) : cell buf i = .ok c ∧ Ends buf (i + 1) s := by
  have hlen := h.len
  rw [List.length_cons] at hlen
  have hlt : i < buf.length := by omega
  have hdrop := h.drop
  rw [List.drop_eq_getElem_cons hlt, List.map_cons, List.cons.injEq] at hdrop
  refine ⟨?_, hdrop.2, by omega⟩
  unfold Kaku.cell
  rw [List.getElem?_eq_getElem hlt, hdrop.1]

/-- The characters in front of the zero byte are moved behind those that have been. -/
theorem moveLoop_spec (hends : Ends buf i (s ++ [0])) (hzero : 0 ∉ s) (hle : t.length ≤ i)
    (hleft : i + left = buf.length) :
    moveLoop left i t.length (written t buf) = .ok (t.length + s.length, written (t ++ s) buf) := by
  induction s generalizing i left t with
  | nil =>
    have hlen := hends.len
    obtain ⟨left, rfl⟩ : ∃ k, left = k + 1 := ⟨left - 1, by simp at hlen; omega⟩
    unfold moveLoop
    rw [cell_written hle, hends.cell.1, ok_bind, if_neg (not_not_intro rfl), List.append_nil]
    rfl
  | cons c s ih =>
    have hlen := hends.len
    rw [List.cons_append, List.length_cons] at hlen
    obtain ⟨left, rfl⟩ : ∃ k, left = k + 1 := ⟨left - 1, by omega⟩
    obtain ⟨hcell, hrest⟩ := hends.cell
    rw [List.mem_cons, not_or] at hzero
    have hnext := @ih (i + 1) left (t ++ [c]) hrest hzero.2 (by simpa using hle) (by omega)
    rw [List.length_append, List.length_singleton, List.append_assoc, List.singleton_append,
      Nat.add_assoc, Nat.add_comm 1] at hnext
    unfold moveLoop
    rw [cell_written hle, hcell, ok_bind, if_pos (Ne.symm hzero.1), putCell_written,
      if_pos (by omega), ok_bind]
    exact hnext

/-- The string stands at the start of the block. -/
theorem moveToStart_spec (hends : Ends buf i (s ++ [0])) (hzero : 0 ∉ s) :
    moveToStart i buf = .ok (written (s ++ [0]) buf) := by
  have hlen := hends.len
  rw [List.length_append, List.length_singleton] at hlen
  have hleft : i + (buf.length - i) = buf.length := by omega
  have hmove := moveLoop_spec (t := []) hends hzero (Nat.zero_le _) hleft
  rw [written_nil, List.length_nil, Nat.zero_add, List.nil_append] at hmove
  unfold moveToStart
  rw [hmove, ok_bind]
  simp only
  rw [putCell_written, if_pos (by omega)]

/-! ## The numerals that are made -/

theorem decDigit_eq (num : UInt32) : decDigit num = digitChar (num.toNat % 10) := by
  have hlt : num.toNat % 10 < 10 := Nat.mod_lt _ (by decide)
  unfold decDigit digitChar
  rw [if_pos hlt, ← UInt8.toNat_inj]
  simp

theorem hexDigit_eq (num : UInt32) : hexDigit num = digitChar (num.toNat % 16) := by
  have hand : (num &&& 0xF).toNat = num.toNat % 16 := Nat.and_two_pow_sub_one_eq_mod num.toNat 4
  have hlt : num.toNat % 16 < 16 := Nat.mod_lt _ (by decide)
  unfold hexDigit
  rw [hand]
  interval_cases num.toNat % 16 <;> decide

theorem toNat_shiftRight_four (num : UInt32) : (num >>> 4).toNat = num.toNat / 16 := by
  rw [UInt32.toNat_shiftRight, Nat.shiftRight_eq_div_pow]
  rfl

theorem lt_zero_iff (n : Int32) : n < 0 ↔ n.toInt < 0 := Int32.lt_iff_toInt_lt

/-- The absolute value, also that of the most negative number. -/
theorem toNat_absolute (n : Int32) :
    (if n < 0 then 0 - n.toUInt32 else n.toUInt32).toNat = n.toInt.natAbs := by
  have hint : n.toInt = n.toBitVec.toInt := rfl
  have hnat : n.toUInt32.toNat = n.toBitVec.toNat := rfl
  have hlt : n.toUInt32.toNat < 2 ^ 32 := n.toUInt32.toNat_lt
  rw [BitVec.toInt_eq_toNat_cond, ← hnat] at hint
  by_cases hneg : n < 0
  · have hneg' := (lt_zero_iff n).1 hneg
    have hzero : (0 : UInt32).toNat = 0 := rfl
    rw [if_pos hneg, UInt32.toNat_sub, hzero]
    split at hint <;> omega
  · have hneg' : ¬ n.toInt < 0 := fun h => hneg ((lt_zero_iff n).2 h)
    rw [if_neg hneg]
    split at hint <;> omega

theorem ends_new (size : Nat) : Ends (List.replicate size none) size [] :=
  ⟨by simp, by simp⟩

theorem itoaDigits_spec (hends : Ends buf 11 s) :
    ∃ i buf', itoaDigits num buf = .ok (i, buf') ∧ 0 < i ∧
      Ends buf' i (numeral 10 num.toNat ++ s) := by
  have hb : 1 < 10 := by decide
  have hdiv (num : UInt32) : (num / 10).toNat = num.toNat / 10 := rfl
  unfold itoaDigits
  by_cases hnum : num = 0
  · subst hnum
    obtain ⟨buf₁, hput, -, hends₁⟩ := hends.put 0x30
    obtain ⟨i, buf₂, hloop, -, hi, hends₂⟩ :=
      digitsLoop_spec hb decDigit_eq hdiv hends₁
        (show (Nat.digits 10 (0 : UInt32).toNat).length ≤ 10 from Nat.zero_le _)
    refine ⟨i, buf₂, ?_, ?_, hends₂⟩
    · rw [if_pos rfl, hput]
      exact hloop
    · have hi' : i + 0 = 10 := hi
      omega
  · have hpos : num.toNat ≠ 0 := fun h => hnum (UInt32.toNat_inj.1 h)
    have hfit : (Nat.digits 10 num.toNat).length ≤ 10 := by
      rw [Nat.digits_length_le_iff hb]
      have hlt := num.toNat_lt
      omega
    obtain ⟨i, buf', hloop, -, hi, hends'⟩ :=
      digitsLoop_spec hb decDigit_eq hdiv hends (hfit.trans (by decide))
    refine ⟨i, buf', ?_, by omega, ?_⟩
    · rw [if_neg hnum]
      exact hloop
    · rwa [numeral, if_neg hpos]

theorem putSign_spec (neg : Bool) (hends : Ends buf (i + 1) s) :
    ∃ i' buf', putSign neg (i + 1) buf = .ok (i', buf') ∧
      Ends buf' i' (if neg then 0x2D :: s else s) := by
  cases neg with
  | false => exact ⟨i + 1, buf, rfl, hends⟩
  | true =>
    obtain ⟨buf', hput, -, hends'⟩ := hends.put 0x2D
    refine ⟨i, buf', ?_, hends'⟩
    simp only [putSign, if_true, hput, ok_bind]
    rfl

/-- `itoa` makes the decimal numeral. -/
theorem itoa_spec (n : Int32) (hm : m 0 = true) :
    ∃ rest, itoa n m = .ok (some ((decimal n.toInt ++ [0]).map some ++ rest), m.next) := by
  obtain ⟨buf₁, hput, -, hends₁⟩ := (ends_new 12).put 0
  obtain ⟨i, buf₂, hdigits, hi, hends₂⟩ :=
    @itoaDigits_spec (if n < 0 then 0 - n.toUInt32 else n.toUInt32) _ _ hends₁
  rw [toNat_absolute] at hends₂
  obtain ⟨i, rfl⟩ : ∃ k, i = k + 1 := ⟨i - 1, by omega⟩
  obtain ⟨i', buf₃, hsign, hends₃⟩ := putSign_spec (decide (n < 0)) hends₂
  have hdecimal : (if decide (n < 0) = true then 0x2D :: (numeral 10 n.toInt.natAbs ++ [0])
      else numeral 10 n.toInt.natAbs ++ [0]) = decimal n.toInt ++ [0] := by
    unfold decimal
    simp only [decide_eq_true_eq, lt_zero_iff]
    split <;> rfl
  rw [hdecimal] at hends₃
  refine ⟨buf₃.drop (decimal n.toInt ++ [0]).length, ?_⟩
  unfold itoa
  rw [if_pos hm]
  simp only
  rw [hput, ok_bind, hdigits, ok_bind]
  simp only
  rw [hsign, ok_bind]
  simp only
  rw [moveToStart_spec hends₃ (zero_not_mem_decimal _), ok_bind]
  rfl

/-- `itoa_hex` makes the hexadecimal numeral. -/
theorem itoaHex_spec (n : UInt32) (hm : m 0 = true) :
    ∃ rest, itoaHex n m = .ok (some ((hexadecimal n.toNat ++ [0]).map some ++ rest), m.next) := by
  have hb : 1 < 16 := by decide
  obtain ⟨buf₁, hput₁, hlen₁, hends₁⟩ := (ends_new 9).put 0
  obtain ⟨buf₂, hput₂, hlen₂, hends₂⟩ := hends₁.put (hexDigit n)
  have hfit : (Nat.digits 16 (n >>> 4).toNat).length ≤ 7 := by
    rw [Nat.digits_length_le_iff hb, toNat_shiftRight_four]
    have hlt := n.toNat_lt
    omega
  obtain ⟨i, buf, hdigits, hlen, -, hends⟩ :=
    digitsLoop_spec hb hexDigit_eq toNat_shiftRight_four hends₂ hfit
  rw [toNat_shiftRight_four, hexDigit_eq, List.append_cons, ← numeral_eq hb] at hends
  refine ⟨buf.drop (hexadecimal n.toNat ++ [0]).length, ?_⟩
  unfold itoaHex
  rw [if_pos hm, hput₁, ok_bind, hput₂, ok_bind, hdigits, ok_bind]
  simp only
  rw [moveToStart_spec hends (zero_not_mem_hexadecimal _), ok_bind]
  rfl

end Kaku
