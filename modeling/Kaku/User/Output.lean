-- SUMMARY: What user programs write: `printf` with its growing buffer, and formats expanded by evaluation.
import Kaku.User.Printf

/-!
# `printf`

`user_fs/lib/stdio.h`. `vsnprintf` cuts off what does not fit, so `printf` tries again with
a buffer four times as large whenever the text has come to its end. What the caller sees is
the whole text or, behind the fourth attempt, nothing.
-/

namespace Kaku

/-- The characters of a literal. -/
def ascii (s : String) : List UInt8 := s.toList.map fun c => c.toNat.toUInt8

/-! ## The code -/

/-- The string `SYS_WRITE` finds at the start of the object. -/
def textOf : List (Option UInt8) → K (List UInt8)
  | some c :: cells =>
    if c = 0 then .ok []
    else do
      let s ← textOf cells
      pure (c :: s)
  | _ => .error .wild

/-- The loop over the attempts, each with what `malloc` answers in it. -/
def printfLoop (fmt : List UInt8) (args : List Arg) (ms : Nat → Mallocs) :
    (left attempt : Nat) → (size : UInt32) → K (Option (List UInt8))
  | 0, _, _ => .ok none
  | left + 1, attempt, size =>
    if ms attempt 0 then do
      let (n, buf) ← vsnprintf (List.replicate size.toNat none) size fmt args (ms attempt).next
      if UInt32.ofNat n < size - 1 then do
        let text ← textOf buf
        pure (some text)
      else printfLoop fmt args ms left (attempt + 1) (size * 4)
    else .ok none

/-- The text that `printf` writes, if it writes one. -/
def printf (fmt : List UInt8) (args : List Arg) (ms : Nat → Mallocs) : K (Option (List UInt8)) :=
  printfLoop (fmt ++ [0]) args ms 4 0 256

/-- `snprintf` into an object of its own. -/
def snprintf (size : UInt32) (fmt : List UInt8) (args : List Arg) (m : Mallocs) :
    K (List UInt8) := do
  let (_, buf) ← vsnprintf (List.replicate size.toNat none) size (fmt ++ [0]) args m
  textOf buf

variable {fmt e s : List UInt8} {args : List Arg} {m : Mallocs} {ms : Nat → Mallocs}
  {size : UInt32} {cells : List (Option UInt8)}

/-! ## Text in a buffer -/

theorem textOf_written {rest : List (Option UInt8)} (s : List UInt8) :
    textOf ((s ++ [0]).map some ++ rest) = .ok (s.takeWhile (· ≠ 0)) := by
  induction s with
  | nil => rfl
  | cons c s ih =>
    rw [List.cons_append, List.map_cons, List.cons_append, textOf]
    by_cases hc : c = 0
    · rw [if_pos hc, List.takeWhile_cons_of_neg (by simpa using hc)]
    · rw [if_neg hc, ih, ok_bind, List.takeWhile_cons_of_pos (by simpa using hc)]
      rfl

theorem takeWhile_of_nul_free (h : 0 ∉ s) : s.takeWhile (fun c : UInt8 => decide (c ≠ 0)) = s := by
  rw [List.takeWhile_eq_self_iff]
  intro c hc
  rw [decide_eq_true_eq]
  rintro rfl
  exact h hc

/-- What `vsnprintf` puts into a new buffer. -/
theorem vsnprintf_new (hsize : 1 ≤ size.toNat) (hzero : 0 ∉ fmt) (hexpands : Expands fmt args e)
    (hm : m.Granting) :
    vsnprintf (List.replicate size.toNat none) size (fmt ++ [0]) args m =
      if endsOpen fmt ∧ e.length < size.toNat - 1 then .error .wild
      else .ok (min (size.toNat - 1) e.length,
        written (e.take (size.toNat - 1) ++ [0]) (List.replicate size.toNat none)) := by
  have hlimit : (size - 1).toNat = size.toNat - 1 := UInt32.toNat_sub_of_le size 1 hsize
  have hlen : size.toNat - 1 < (List.replicate size.toNat (none : Option UInt8)).length := by
    rw [List.length_replicate]
    omega
  have hdone : ([] : List UInt8).length ≤ size.toNat - 1 := Nat.zero_le _
  have hloop := vsnprintfLoop_eq hexpands hzero hm hlen hdone
  rw [List.length_nil, written_nil, List.nil_append, Nat.zero_add] at hloop
  rw [vsnprintf, hlimit, hloop]
  split
  · rfl
  · have hroom : (e.take (size.toNat - 1)).length < size.toNat := by
      rw [List.length_take]
      omega
    rw [ok_bind]
    simp only [putCell_written, List.length_replicate, if_pos hroom, ok_bind]
    rw [List.length_take]
    rfl

/-! ## Growing -/

/-- An attempt that has room writes the text, and one that has none is made again. -/
theorem printfLoop_succ {left attempt : Nat} (hsize : 1 ≤ size.toNat) (hzero : 0 ∉ fmt)
    (hexpands : Expands fmt args e) (hms : ∀ i, (ms i).Granting) :
    printfLoop (fmt ++ [0]) args ms (left + 1) attempt size =
      if e.length < size.toNat - 1 then
        if endsOpen fmt then .error .wild else .ok (some (e.takeWhile (· ≠ 0)))
      else printfLoop (fmt ++ [0]) args ms left (attempt + 1) (size * 4) := by
  have hlimit : (size - 1).toNat = size.toNat - 1 := UInt32.toNat_sub_of_le size 1 hsize
  have hcount {n : Nat} (hn : n < size.toNat) : UInt32.ofNat n < size - 1 ↔ n < size.toNat - 1 := by
    rw [UInt32.lt_iff_toNat_lt, hlimit, UInt32.toNat_ofNat_of_lt' (hn.trans size.toNat_lt)]
  rw [printfLoop, if_pos (hms attempt 0), vsnprintf_new hsize hzero hexpands (hms attempt).next]
  by_cases hroom : e.length < size.toNat - 1
  · rw [if_pos hroom]
    by_cases hopen : endsOpen fmt = true
    · rw [if_pos ⟨hopen, hroom⟩, if_pos hopen]
      rfl
    · rw [if_neg fun h => hopen h.1, if_neg hopen, ok_bind, Nat.min_eq_right hroom.le,
        List.take_of_length_le hroom.le]
      simp only [(hcount (by omega)).2 hroom, if_true, written, textOf_written, ok_bind]
      rfl
  · have hfull : ¬ UInt32.ofNat (size.toNat - 1) < size - 1 := fun hlt =>
      Nat.lt_irrefl _ ((hcount (by omega)).1 hlt)
    rw [if_neg fun h => hroom h.2, if_neg hroom, ok_bind, Nat.min_eq_left (by omega)]
    simp only [hfull, if_false]

/-- The last attempt is the one that counts. -/
theorem printfLoop_eq {left attempt : Nat} (hsize : 1 ≤ size.toNat)
    (hbound : size.toNat * 4 ^ left < 2 ^ 32) (hzero : 0 ∉ fmt) (hexpands : Expands fmt args e)
    (hms : ∀ i, (ms i).Granting) :
    printfLoop (fmt ++ [0]) args ms (left + 1) attempt size =
      if e.length < size.toNat * 4 ^ left - 1 then
        if endsOpen fmt then .error .wild else .ok (some (e.takeWhile (· ≠ 0)))
      else .ok none := by
  induction left generalizing attempt size with
  | zero =>
    rw [printfLoop_succ hsize hzero hexpands hms, Nat.pow_zero, Nat.mul_one]
    rfl
  | succ left ih =>
    rw [Nat.pow_succ, Nat.mul_comm (4 ^ left), ← Nat.mul_assoc] at hbound ⊢
    have hone : 1 ≤ 4 ^ left := Nat.one_le_two_pow.trans (Nat.pow_le_pow_left (by decide) left)
    have hle : size.toNat * 4 ≤ size.toNat * 4 * 4 ^ left := Nat.le_mul_of_pos_right _ hone
    have hnext : (size * 4).toNat = size.toNat * 4 := by
      rw [UInt32.toNat_mul]
      exact Nat.mod_eq_of_lt (hle.trans_lt hbound)
    have hrest := @ih (size * 4) (attempt + 1) (by omega) (by rwa [hnext])
    rw [hnext] at hrest
    rw [printfLoop_succ hsize hzero hexpands hms, hrest]
    by_cases hroom : e.length < size.toNat - 1
    · have hlast : e.length < size.toNat * 4 * 4 ^ left - 1 := by omega
      rw [if_pos hroom, if_pos hlast]
    · rw [if_neg hroom]

/-- What a format of plain characters and `%s` expands to. -/
def expand : (fmt : List UInt8) → (strs : List (List UInt8)) → Option (List UInt8)
  | [], _ => some []
  | c :: fmt, strs =>
    if c = percent then
      match fmt, strs with
      | d :: fmt, s :: strs => if d = charS then (expand fmt strs).map (s ++ ·) else none
      | _, _ => none
    else (expand fmt strs).map (c :: ·)

/-- Plain characters stand for themselves. -/
theorem expand_plain {pre : List UInt8} (hpre : percent ∉ pre) (strs : List (List UInt8)) :
    expand (pre ++ fmt) strs = (expand fmt strs).map (pre ++ ·) := by
  induction pre with
  | nil => cases h : expand fmt strs <;> simp [h]
  | cons c pre ih =>
    rw [List.mem_cons, not_or] at hpre
    rw [List.cons_append, expand.eq_def]
    simp only [if_neg (Ne.symm hpre.1), ih hpre.2, Option.map_map]
    rfl

theorem expand_string (s : List UInt8) (strs : List (List UInt8)) :
    expand (percent :: charS :: fmt) (s :: strs) = (expand fmt strs).map (s ++ ·) := rfl

theorem expand_end {pre : List UInt8} (hpre : percent ∉ pre) (strs : List (List UInt8)) :
    expand pre strs = some pre := by
  have hplain : expand (pre ++ []) strs = (expand [] strs).map (pre ++ ·) := expand_plain hpre strs
  rwa [List.append_nil, expand, Option.map_some, List.append_nil] at hplain

theorem expands_of_expand {strs : List (List UInt8)} (hstrs : ∀ s ∈ strs, 0 ∉ s)
    (h : expand fmt strs = some e) : Expands fmt (strs.map .str) e ∧ endsOpen fmt = false := by
  fun_induction expand fmt strs generalizing e with
  | case1 strs =>
    cases h
    exact ⟨.nil _, rfl⟩
  | case2 fmt s strs ih =>
    obtain ⟨e, he, rfl⟩ := Option.map_eq_some_iff.1 h
    obtain ⟨hexpands, hopen⟩ := ih (fun t ht => hstrs t (List.mem_cons_of_mem _ ht)) he
    exact ⟨.directive (.str (hstrs s List.mem_cons_self)) hexpands, hopen⟩
  | case3 => cases h
  | case4 => cases h
  | case5 c fmt strs hc ih =>
    obtain ⟨e, he, rfl⟩ := Option.map_eq_some_iff.1 h
    obtain ⟨hexpands, hopen⟩ := ih hstrs he
    refine ⟨.char hc hexpands, ?_⟩
    rw [endsOpen.eq_def]
    exact (if_neg hc).trans hopen

/-- A text of strings that is not too long is written as it is. -/
theorem printf_expand {strs : List (List UInt8)} (hzero : 0 ∉ fmt) (hstrs : ∀ s ∈ strs, 0 ∉ s)
    (hexpand : expand fmt strs = some e) (hnul : 0 ∉ e) (hlen : e.length < 16383)
    (hms : ∀ i, (ms i).Granting) : printf fmt (strs.map .str) ms = .ok (some e) := by
  obtain ⟨hexpands, hopen⟩ := expands_of_expand hstrs hexpand
  have hbound : (256 : UInt32).toNat * 4 ^ 3 < 2 ^ 32 := by decide
  have hloop : printf fmt (strs.map .str) ms = _ :=
    printfLoop_eq (by decide) hbound hzero hexpands hms
  have hsize : (256 : UInt32).toNat * 4 ^ 3 - 1 = 16383 := rfl
  rw [hsize, if_pos hlen, if_neg (by simp [hopen]), takeWhile_of_nul_free hnul] at hloop
  exact hloop

/-- A buffer that is large enough for the text and its zero byte has the text. -/
theorem snprintf_expand {strs : List (List UInt8)} (hzero : 0 ∉ fmt) (hstrs : ∀ s ∈ strs, 0 ∉ s)
    (hexpand : expand fmt strs = some e) (hnul : 0 ∉ e) (hlen : e.length < size.toNat)
    (hm : m.Granting) : snprintf size fmt (strs.map .str) m = .ok e := by
  obtain ⟨hexpands, hopen⟩ := expands_of_expand hstrs hexpand
  rw [snprintf, vsnprintf_new (by omega) hzero hexpands hm, if_neg (by simp [hopen]), ok_bind,
    List.take_of_length_le (by omega)]
  simp only [written, textOf_written]
  rw [takeWhile_of_nul_free hnul]

end Kaku
