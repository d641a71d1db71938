-- SUMMARY: Byte-addressed memory: little-endian words, and which bytes a load or a store touches.
import Mathlib.Data.Nat.Basic
import Mathlib.Tactic.Ring

/-!
# Byte memory

Memory is a function from addresses to bytes. Words of `n` bytes are loaded and
stored in little-endian order. A load depends on the bytes it covers and on no
others, and a store changes the bytes it covers and no others: the two facts
every frame argument over such memory comes down to.
-/

namespace Kaku

abbrev Mem := Nat → UInt8

namespace Mem

/-- The word in the `n` bytes from `a` on. -/
def load (m : Mem) (a : Nat) : Nat → Nat
  | 0 => 0
  | n + 1 => (m a).toNat + 256 * load m (a + 1) n

/-- Overwrite the `n` bytes from `a` on with a word, as far as it fits. -/
def store (m : Mem) (a n v : Nat) : Mem :=
  fun x => if a ≤ x ∧ x < a + n then UInt8.ofNat (v / 256 ^ (x - a)) else m x

/-- Overwrite the `n` bytes from `a` on with the first `n` bytes of `src`. -/
def blit (m : Mem) (a n : Nat) (src : Mem) : Mem :=
  fun x => if a ≤ x ∧ x < a + n then src (x - a) else m x

/-- The `n` bytes from `a` on. -/
def peek (m : Mem) (a n : Nat) : List UInt8 := (List.range n).map fun k => m (a + k)

variable {m m' src src' : Mem} {a b n k v x : Nat}

theorem load_lt : m.load a n < 256 ^ n := by
  induction n generalizing a with
  | zero => simp [load]
  | succ n ih =>
    have hbyte : (m a).toNat < 256 := (m a).toNat_lt
    have hrest := ih (a := a + 1)
    rw [load, Nat.pow_succ]
    omega

/-- Equal bytes make equal words, wherever they lie. -/
theorem load_eq_of_bytes (h : ∀ k < n, m (a + k) = m' (b + k)) : m.load a n = m'.load b n := by
  induction n generalizing a b with
  | zero => rfl
  | succ n ih =>
    have hrest : m.load (a + 1) n = m'.load (b + 1) n := by
      apply ih
      intro k hk
      rw [Nat.add_assoc a, Nat.add_assoc b, Nat.add_comm 1]
      exact h (k + 1) (by omega)
    have hfirst := h 0 (by omega)
    rw [Nat.add_zero, Nat.add_zero] at hfirst
    rw [load, load, hfirst, hrest]

/-- A load depends only on the bytes it covers. -/
theorem load_congr (h : ∀ x, a ≤ x → x < a + n → m x = m' x) : m.load a n = m'.load a n := by
  apply load_eq_of_bytes
  intro k hk
  exact h (a + k) (by omega) (by omega)

theorem load_zero : load (fun _ => 0) a n = 0 := by
  induction n generalizing a with
  | zero => rfl
  | succ n ih => rw [load, ih]; rfl

theorem store_of_not_mem (h : x < a ∨ a + n ≤ x) : m.store a n v x = m x := by
  rw [store, if_neg]
  omega

theorem load_store_self : (m.store a n v).load a n = v % 256 ^ n := by
  induction n generalizing a v with
  | zero => simp [load, Nat.mod_one]
  | succ n ih =>
    have hbyte : (m.store a (n + 1) v a).toNat = v % 256 := by
      simp [store]
    have hrest : (m.store a (n + 1) v).load (a + 1) n = v / 256 % 256 ^ n := by
      rw [← ih (a := a + 1)]
      apply load_congr
      intro x hlo hhi
      have hpow : v / 256 ^ (x - a) = v / 256 / 256 ^ (x - (a + 1)) := by
        rw [Nat.div_div_eq_div_mul, show x - a = x - (a + 1) + 1 by omega, Nat.pow_succ,
          Nat.mul_comm]
      rw [store, store, if_pos (by omega), if_pos (by omega), hpow]
    rw [load, hbyte, hrest, Nat.pow_succ, Nat.mul_comm (256 ^ n) 256, Nat.mod_mul]

/-- The bytes of a word. -/
theorem ofNat_load_div (h : k < n) : UInt8.ofNat (m.load a n / 256 ^ k) = m (a + k) := by
  induction n generalizing a k with
  | zero => omega
  | succ n ih =>
    have hbyte : (m a).toNat < 256 := (m a).toNat_lt
    rw [load]
    cases k with
    | zero =>
      rw [Nat.pow_zero, Nat.div_one, Nat.add_zero, ← UInt8.ofNat_mod_size]
      simp [Nat.mod_eq_of_lt hbyte]
    | succ k =>
      have hrest := ih (a := a + 1) (k := k) (by omega)
      rw [Nat.pow_succ', ← Nat.div_div_eq_div_mul, Nat.add_mul_div_left _ _ (by omega),
        Nat.div_eq_of_lt hbyte, Nat.zero_add, hrest, Nat.add_assoc, Nat.add_comm 1]

/-- Storing what is there already changes nothing. -/
theorem store_load_self : m.store a n (m.load a n) = m := by
  funext x
  rw [store]
  split_ifs with hx
  · rw [ofNat_load_div (by omega), Nat.add_sub_cancel' hx.1]
  · rfl

/-- A word is stored as far as it fits. -/
theorem store_mod : m.store a n (v % 256 ^ n) = m.store a n v := by
  funext x
  rw [store, store]
  split_ifs with hin
  · have hsplit : 256 ^ n = 256 ^ (x - a) * 256 ^ (n - (x - a)) := by
      rw [← Nat.pow_add, Nat.add_sub_cancel' (by omega)]
    have hbyte : 256 ∣ 256 ^ (n - (x - a)) := dvd_pow_self 256 (by omega)
    apply UInt8.toNat.inj
    rw [hsplit, Nat.mod_mul_right_div_self, UInt8.toNat_ofNat', UInt8.toNat_ofNat',
      Nat.mod_mod_of_dvd _ hbyte]
  · rfl

theorem blit_of_not_mem (h : x < a ∨ a + n ≤ x) : m.blit a n src x = m x := by
  rw [blit, if_neg]
  omega

theorem blit_of_mem (hlo : a ≤ x) (hhi : x < a + n) : m.blit a n src x = src (x - a) := by
  rw [blit, if_pos ⟨hlo, hhi⟩]

theorem blit_congr (h : ∀ k < n, src k = src' k) : m.blit a n src = m.blit a n src' := by
  funext x
  rw [blit, blit]
  split_ifs with hx
  · exact h _ (by omega)
  · rfl

@[simp] theorem load_one : m.load a 1 = (m a).toNat := by simp [load]

theorem store_one {b : UInt8} : m.store a 1 b.toNat x = if x = a then b else m x := by
  by_cases hx : x = a
  · rw [store, if_pos (by omega), if_pos hx, hx, Nat.sub_self, Nat.pow_zero, Nat.div_one,
      UInt8.ofNat_toNat]
  · rw [store, if_neg (by omega), if_neg hx]

/-- Bytes that are overwritten from the first one on. -/
theorem blit_succ :
    m.blit a (n + 1) src = (m.store a 1 (src 0).toNat).blit (a + 1) n fun i => src (i + 1) := by
  funext x
  unfold blit
  rw [store_one]
  by_cases hfirst : x = a
  · rw [if_pos (by omega), if_neg (by omega), if_pos hfirst, hfirst, Nat.sub_self]
  · by_cases hin : a ≤ x ∧ x < a + (n + 1)
    · have hoff : x - a = x - (a + 1) + 1 := by omega
      rw [if_pos hin, if_pos (by omega), hoff]
    · rw [if_neg hin, if_neg (by omega), if_neg hfirst]

/-- Storing elsewhere leaves a word alone. -/
theorem load_store_of_disjoint (h : a + n ≤ b ∨ b + k ≤ a) :
    (m.store b k v).load a n = m.load a n := by
  apply load_congr
  intro x hlo hhi
  exact store_of_not_mem (by omega)

@[simp] theorem length_peek : (m.peek a n).length = n := by simp [peek]

theorem peek_eq_iff (bytes : List UInt8) :
    m.peek a bytes.length = bytes ↔ ∀ k (hk : k < bytes.length), m (a + k) = bytes[k] := by
  constructor
  · intro h k hk
    have hget := congrArg (fun l : List UInt8 => l[k]?) h
    simpa [peek, hk] using hget
  · intro h
    apply List.ext_getElem (by simp)
    intro k _ hk
    simpa [peek] using h k hk

theorem peek_congr (h : ∀ k < n, m (a + k) = m' (b + k)) : m.peek a n = m'.peek b n := by
  apply List.map_congr_left
  intro k hk
  exact h k (List.mem_range.1 hk)

/-- Bytes that are read in two pieces. -/
theorem peek_add : m.peek a (n + k) = m.peek a n ++ m.peek (a + n) k := by
  simp only [peek, List.range_add, List.map_append, List.map_map]
  congr 1
  apply List.map_congr_left
  intro i _
  simp [Nat.add_assoc]

theorem peek_take : (m.peek a n).take k = m.peek a (min k n) := by
  rw [peek, ← List.map_take, List.take_range, peek]

/-- Bytes of which the first ones are known. -/
theorem append_peek {bytes : List UInt8} (h : m.peek a bytes.length = bytes)
    (hn : bytes.length ≤ n) :
    bytes ++ m.peek (a + bytes.length) (n - bytes.length) = m.peek a n := by
  have hadd : m.peek a (bytes.length + (n - bytes.length)) = _ := peek_add
  rw [h, Nat.add_sub_cancel' hn] at hadd
  exact hadd.symm

end Mem

end Kaku
