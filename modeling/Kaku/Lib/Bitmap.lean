-- SUMMARY: Bitmaps in byte memory: testing, setting and clearing a bit, and scanning for the lowest clear one.
import Mathlib.Data.Nat.Bitwise
import Mathlib.Tactic.IntervalCases
import Kaku.Lib.Bytes

/-!
# Bitmaps

Bit `i` of a bitmap is bit `i % 8` of byte `i / 8`. An allocator over a bitmap
scans the bytes upwards and the bits of each byte upwards, and takes the first
clear bit it meets, which is the lowest one.
-/

namespace Kaku

namespace Mem

def bit (m : Mem) (i : Nat) : Bool := (m (i / 8)).toNat.testBit (i % 8)

/-- `m[i / 8] |= 1 << (i % 8)`. -/
def setBit (m : Mem) (i : Nat) : Mem :=
  fun a => if a = i / 8 then m a ||| 1 <<< UInt8.ofNat (i % 8) else m a

/-- `m[i / 8] &= ~(1 << (i % 8))`. -/
def clearBit (m : Mem) (i : Nat) : Mem :=
  fun a => if a = i / 8 then m a &&& ~~~(1 <<< UInt8.ofNat (i % 8)) else m a

/-- The lowest clear bit of a byte among the `k` bits from bit `j` on. -/
def clearBitOfByte (byte : UInt8) : Nat → Nat → Option Nat
  | _, 0 => none
  | j, k + 1 => if byte.toNat.testBit j then clearBitOfByte byte (j + 1) k else some j

/-- The first clear bit in the `n` bytes from byte `i` on. -/
def firstClear (m : Mem) : Nat → Nat → Option Nat
  | _, 0 => none
  | i, n + 1 =>
    match clearBitOfByte (m i) 0 8 with
    | some j => some (i * 8 + j)
    | none => firstClear m (i + 1) n

variable {m m' : Mem} {b c i j k n : Nat} {byte : UInt8}

/-! ## Setting and clearing -/

theorem toNat_one_shift (hj : j < 8) : (1 <<< UInt8.ofNat j : UInt8).toNat = 2 ^ j := by
  interval_cases j <;> rfl

theorem testBit_or_one_shift (hj : j < 8) :
    (byte ||| 1 <<< UInt8.ofNat j).toNat.testBit k = (byte.toNat.testBit k || decide (j = k)) := by
  rw [UInt8.toNat_or, Nat.testBit_or, toNat_one_shift hj, Nat.testBit_two_pow]

theorem testBit_and_not_one_shift (hj : j < 8) (hk : k < 8) :
    (byte &&& ~~~(1 <<< UInt8.ofNat j)).toNat.testBit k =
      (byte.toNat.testBit k && !decide (j = k)) := by
  have hnot : (~~~(1 <<< UInt8.ofNat j) : UInt8).toNat = 2 ^ 8 - (2 ^ j + 1) := by
    interval_cases j <;> rfl
  have hlt : 2 ^ j < 2 ^ 8 := Nat.pow_lt_pow_right (by omega) hj
  rw [UInt8.toNat_and, Nat.testBit_and, hnot, Nat.testBit_two_pow_sub_succ hlt,
    Nat.testBit_two_pow, decide_eq_true hk, Bool.true_and]

theorem bit_setBit : (m.setBit i).bit b = (m.bit b || decide (i = b)) := by
  simp only [bit, setBit]
  split
  · rename_i hbyte
    rw [testBit_or_one_shift (by omega)]
    congr 2
    exact propext (by omega)
  · rename_i hbyte
    have hne : i ≠ b := by
      rintro rfl
      exact hbyte rfl
    simp [hne]

theorem bit_clearBit : (m.clearBit i).bit b = (m.bit b && !decide (i = b)) := by
  simp only [bit, clearBit]
  split
  · rename_i hbyte
    rw [testBit_and_not_one_shift (by omega) (by omega)]
    congr 3
    exact propext (by omega)
  · rename_i hbyte
    have hne : i ≠ b := by
      rintro rfl
      exact hbyte rfl
    simp [hne]

theorem bit_congr (h : m (b / 8) = m' (b / 8)) : m.bit b = m'.bit b := by
  rw [bit, bit, h]

theorem bit_of_eq_255 (h : m (b / 8) = 255) : m.bit b = true := by
  have hlt : b % 8 < 8 := Nat.mod_lt _ (by decide)
  rw [bit, h]
  generalize b % 8 = k at hlt
  interval_cases k <;> rfl

/-! ## Scanning -/

theorem clearBitOfByte_eq_some (h : clearBitOfByte byte j k = some b) :
    j ≤ b ∧ b < j + k ∧ byte.toNat.testBit b = false ∧
      ∀ c, j ≤ c → c < b → byte.toNat.testBit c = true := by
  induction k generalizing j with
  | zero => cases h
  | succ k ih =>
    rw [clearBitOfByte] at h
    split at h
    · rename_i hset
      obtain ⟨hlo, hhi, hclear, hbelow⟩ := ih h
      refine ⟨by omega, by omega, hclear, fun c hjc hcb => ?_⟩
      rcases Nat.eq_or_lt_of_le hjc with rfl | hlt
      · exact hset
      · exact hbelow c hlt hcb
    · rename_i hset
      obtain rfl : j = b := Option.some.inj h
      exact ⟨le_rfl, by omega, by simpa using hset, by omega⟩

theorem clearBitOfByte_eq_none (h : clearBitOfByte byte j k = none) (hlo : j ≤ c)
    (hhi : c < j + k) : byte.toNat.testBit c = true := by
  induction k generalizing j with
  | zero => omega
  | succ k ih =>
    rw [clearBitOfByte] at h
    split at h
    · rename_i hset
      rcases Nat.eq_or_lt_of_le hlo with rfl | hlt
      · exact hset
      · exact ih h hlt (by omega)
    · cases h

/-- The scan returns the lowest clear bit. -/
theorem firstClear_eq_some (h : m.firstClear i n = some b) :
    8 * i ≤ b ∧ b < 8 * (i + n) ∧ m.bit b = false ∧
      ∀ c, 8 * i ≤ c → c < b → m.bit c = true := by
  induction n generalizing i with
  | zero => cases h
  | succ n ih =>
    rw [firstClear] at h
    split at h
    · rename_i j hj
      obtain rfl : i * 8 + j = b := Option.some.inj h
      obtain ⟨-, hj8, hclear, hbelow⟩ := clearBitOfByte_eq_some hj
      refine ⟨by omega, by omega, ?_, fun c hlo hhi => ?_⟩
      · rw [bit, show (i * 8 + j) / 8 = i by omega, show (i * 8 + j) % 8 = j by omega]
        exact hclear
      · rw [bit, show c / 8 = i by omega]
        exact hbelow _ (by omega) (by omega)
    · rename_i hfull
      obtain ⟨hlo, hhi, hclear, hbelow⟩ := ih h
      refine ⟨by omega, by omega, hclear, fun c hc hcb => ?_⟩
      rcases Nat.lt_or_ge c (8 * (i + 1)) with hin | hout
      · rw [bit, show c / 8 = i by omega]
        exact clearBitOfByte_eq_none hfull (by omega) (by omega)
      · exact hbelow c hout hcb

/-- The scan finds nothing only in a full bitmap. -/
theorem firstClear_eq_none (h : m.firstClear i n = none) (hlo : 8 * i ≤ c)
    (hhi : c < 8 * (i + n)) : m.bit c = true := by
  induction n generalizing i with
  | zero => omega
  | succ n ih =>
    rw [firstClear] at h
    split at h
    · cases h
    · rename_i hfull
      rcases Nat.lt_or_ge c (8 * (i + 1)) with hin | hout
      · rw [bit, show c / 8 = i by omega]
        exact clearBitOfByte_eq_none hfull (by omega) (by omega)
      · exact ih h hout (by omega)

/-- The scan depends on the bytes it covers. -/
theorem firstClear_congr (h : ∀ a, i ≤ a → a < i + n → m' a = m a) :
    m'.firstClear i n = m.firstClear i n := by
  induction n generalizing i with
  | zero => rfl
  | succ n ih =>
    rw [firstClear, firstClear, h i le_rfl (by omega), ih fun a hlo hhi => h a (by omega) (by omega)]

/-- A bitmap with a clear bit within reach of the scan. -/
theorem exists_firstClear (hlo : 8 * i ≤ b) (hhi : b < 8 * (i + n)) (hclear : m.bit b = false) :
    ∃ c, m.firstClear i n = some c := by
  cases h : m.firstClear i n with
  | some c => exact ⟨c, rfl⟩
  | none =>
    rw [firstClear_eq_none h hlo hhi] at hclear
    cases hclear

/-! ## Counting -/

/-- How many of the first `n` bits are clear. -/
def clearCount (m : Mem) (n : Nat) : Nat := (List.range n).countP fun i => !m.bit i

theorem clearCount_congr (h : ∀ i < n, m'.bit i = m.bit i) :
    m'.clearCount n = m.clearCount n := by
  apply List.countP_congr
  intro i hi
  rw [h i (List.mem_range.1 hi)]

/-- Taking a clear bit leaves one fewer. -/
theorem clearCount_of_set (hb : b < n) (hclear : m.bit b = false)
    (h : ∀ i < n, m'.bit i = (m.bit i || decide (i = b))) :
    m'.clearCount n + 1 = m.clearCount n := by
  have hrest : m'.clearCount n = ((List.range n).erase b).countP fun i => !m.bit i := by
    have hperm := List.perm_cons_erase (List.mem_range.2 hb)
    rw [clearCount, hperm.countP_eq, List.countP_cons_of_neg (by simp [h b hb])]
    apply List.countP_congr
    intro i hi
    have hne : i ≠ b := fun heq => by
      rw [heq] at hi
      exact List.nodup_range.not_mem_erase hi
    rw [h i (List.mem_range.1 (List.mem_of_mem_erase hi)), decide_eq_false hne, Bool.or_false]
  have hperm := List.perm_cons_erase (List.mem_range.2 hb)
  rw [hrest, clearCount, hperm.countP_eq, List.countP_cons_of_pos (by simp [hclear])]

/-- Set bits behind the others do not count. -/
theorem clearCount_of_set_behind {l : Nat} (hle : l ≤ n) (h : ∀ i, l ≤ i → i < n → m.bit i = true) :
    m.clearCount n = m.clearCount l := by
  induction n, hle using Nat.le_induction with
  | base => rfl
  | succ n hle ih =>
    have hset : m.bit n = true := h n hle (Nat.lt_succ_self n)
    rw [clearCount, List.range_succ, List.countP_append, List.countP_singleton, hset]
    exact ih fun i hlo hhi => h i hlo (Nat.lt_succ_of_lt hhi)

theorem clearCount_eq_zero : m.clearCount n = 0 ↔ ∀ i < n, m.bit i = true := by
  rw [clearCount, List.countP_eq_zero]
  simp

end Mem

end Kaku
