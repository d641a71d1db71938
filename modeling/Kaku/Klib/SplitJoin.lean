-- SUMMARY: Joining what was split and splitting what was joined, and where the one is not the inverse of the other.
import Kaku.Klib.Overrun

/-!
# Splitting and joining

The splitter drops an empty segment at the end and no other one, so that a delimiter at the end of
the string is lost. The zero byte can be a delimiter, but the splitter does not see what is behind it.
-/

namespace Kaku

/-! ## The laws -/

section
variable {delim : UInt8} {str segment : List UInt8} {strs : List (List UInt8)}

/-- The string without a delimiter at its end. -/
def withoutEnd (str : List UInt8) (delim : UInt8) : List UInt8 :=
  if str.getLast? = some delim then str.dropLast else str

theorem withoutEnd_append (hne : str ≠ []) :
    withoutEnd (segment ++ delim :: str) delim = segment ++ delim :: withoutEnd str delim := by
  obtain ⟨c, rest, rfl⟩ := List.exists_cons_of_ne_nil hne
  have hlast : (segment ++ delim :: c :: rest).getLast? = (c :: rest).getLast? := by
    rw [List.getLast?_append, List.getLast?_cons_cons, List.getLast?_cons]
    rfl
  unfold withoutEnd
  rw [hlast]
  split
  · rw [List.dropLast_append_of_ne_nil (List.cons_ne_nil _ _)]
    rfl
  · rfl

theorem kstrsplitFrom_ne_nil (delim : UInt8) (segment : List UInt8) (hne : str ≠ []) :
    kstrsplitFrom delim segment str ≠ [] := by
  induction str generalizing segment with
  | nil => exact absurd rfl hne
  | cons c str ih =>
    rw [kstrsplitFrom]
    split
    · exact List.cons_ne_nil _ _
    · by_cases hstr : str = []
      · rw [hstr, kstrsplitFrom, if_neg (List.append_ne_nil_of_right_ne_nil _ (List.cons_ne_nil _ _))]
        exact List.cons_ne_nil _ _
      · exact ih _ hstr

theorem kstrjoin_kstrsplitFrom (segment : List UInt8) (hsegment : delim ∉ segment) :
    kstrjoin delim (kstrsplitFrom delim segment str) = withoutEnd (segment ++ str) delim := by
  induction str generalizing segment with
  | nil =>
    have hwhole : withoutEnd segment delim = segment := by
      apply if_neg
      intro hlast
      exact hsegment (List.mem_of_getLast? hlast)
    rw [kstrsplitFrom, List.append_nil, hwhole]
    split
    · rename_i hempty
      rw [hempty]
      rfl
    · rfl
  | cons c str ih =>
    rw [kstrsplitFrom]
    split
    · rename_i hc
      subst hc
      by_cases hstr : str = []
      · subst hstr
        rw [kstrsplitFrom, if_pos rfl, kstrjoin, withoutEnd, List.getLast?_concat, if_pos rfl,
          List.dropLast_concat]
      · obtain ⟨next, rest, hrest⟩ :=
          List.exists_cons_of_ne_nil (kstrsplitFrom_ne_nil c [] hstr)
        have hjoin := ih [] List.not_mem_nil
        rw [hrest, List.nil_append] at hjoin
        rw [hrest, kstrjoin, hjoin, withoutEnd_append hstr]
    · rename_i hc
      rw [ih (segment ++ [c]) (by simpa [hsegment] using Ne.symm hc), List.append_assoc]
      rfl

/-- Joining what was split gives the string without a delimiter at its end. -/
theorem kstrjoin_kstrsplit : kstrjoin delim (kstrsplit str delim) = withoutEnd str delim := by
  rw [kstrsplit, kstrjoin_kstrsplitFrom [] List.not_mem_nil, List.nil_append]

/-- Splitting what was joined gives the strings, unless the last one is empty. -/
theorem kstrsplit_joined (hstrs : ∀ str ∈ strs, delim ∉ str) (hlast : strs.getLast? ≠ some []) :
    kstrsplit (kstrjoin delim strs) delim = strs := by
  induction strs with
  | nil => rfl
  | cons str strs ih =>
    have hstr := hstrs str List.mem_cons_self
    cases strs with
    | nil =>
      have hne : str ≠ [] := fun heq => hlast (by rw [heq]; rfl)
      have hsplit : kstrsplitFrom delim [] (str ++ []) = kstrsplitFrom delim ([] ++ str) [] :=
        kstrsplitFrom_append hstr
      rw [List.append_nil] at hsplit
      rw [kstrjoin, kstrsplit, hsplit, List.nil_append, kstrsplitFrom, if_neg hne]
    | cons next strs =>
      have hrest := ih (fun s hs => hstrs s (List.mem_cons_of_mem _ hs))
        (by rwa [List.getLast?_cons_cons] at hlast)
      rw [kstrjoin, kstrsplit, kstrsplitFrom_append hstr, List.nil_append, kstrsplitFrom_delim, hrest]

end

namespace HeapUse

/-! ## On the heap -/

/-- The characters of the string at `p`, as the loops over `str[i]` read them. -/
def cstrFrom (p : Nat) (s : HeapUse) : (fuel i : Nat) → K (List UInt8)
  | 0, _ => .error .hang
  | fuel + 1, i => do
    let c ← s.load p i 1
    if c = 0 then .ok [] else
      let str ← cstrFrom p s fuel (i + 1)
      pure (UInt8.ofNat c :: str)

def cstr (p : Nat) (s : HeapUse) : K (List UInt8) := s.cstrFrom p heapLen 0

def splitJoin (str : List UInt8) (delim : UInt8) (s : HeapUse) : K (Nat × HeapUse) := do
  let (strs, s) ← s.kstrsplit str delim
  s.kstrjoin strs delim

def joinSplit (strs : Nat) (delim : UInt8) (s : HeapUse) : K (Nat × HeapUse) := do
  let (result, s) ← s.kstrjoin strs delim
  let str ← s.cstr result
  s.kstrsplit str delim

variable {s s' : HeapUse} {da data capacity p n i : Nat} {c : Mem} {str : List UInt8}
variable {strs : List (List UInt8)} {ptrs : List UInt32} {delim : UInt8}

theorem cstrFrom_spec {fuel m : Nat} (h : s.Owns p n c) (hbegins : Begins n c (str ++ [0]))
    (hnul : 0 ∉ str) (hlen : i + m = str.length) (hfuel : m < fuel) :
    s.cstrFrom p fuel i = .ok (str.drop i) := by
  obtain ⟨hle, hend, hchars⟩ := hbegins.string
  induction m generalizing i fuel with
  | zero =>
    obtain ⟨fuel, rfl⟩ := Nat.exists_eq_add_one_of_ne_zero (Nat.ne_of_gt hfuel)
    rw [Nat.add_zero] at hlen
    rw [cstrFrom, load_spec h (by omega), ok_bind, Mem.load_one, hlen, hend, UInt8.toNat_zero,
      if_pos rfl, List.drop_length]
  | succ m ih =>
    obtain ⟨fuel, rfl⟩ := Nat.exists_eq_add_one_of_ne_zero (Nat.ne_of_gt (Nat.zero_lt_of_lt hfuel))
    have hlt : i < str.length := by omega
    rw [cstrFrom, load_spec h (by omega), ok_bind, Mem.load_one, hchars i hlt,
      if_neg (toNat_ne_zero_of_string hnul hlt), ih (by omega) (by omega), ok_bind,
      List.drop_eq_getElem_cons hlt, UInt8.ofNat_toNat]
    rfl

theorem cstr_spec (hs : s.Sound) (h : s.Owns p n c) (hbegins : Begins n c (str ++ [0]))
    (hnul : 0 ∉ str) : s.cstr p = .ok str := by
  have hlt := h.lt_heapLen hs
  have hle := hbegins.string.1
  exact cstrFrom_spec h hbegins hnul (Nat.zero_add _) (by omega)

theorem HasStrings.nul (h : s.HasStrings da data capacity ptrs strs) :
    ∀ str ∈ strs, 0 ∉ str := by
  obtain ⟨-, hstrs⟩ := h
  induction hstrs with
  | nil => exact fun str hstr => absurd hstr List.not_mem_nil
  | cons hstr _ ih => exact List.forall_mem_cons.2 ⟨hstr.1, ih⟩

/-- The delimiter does not make the end of a string. -/
theorem nul_not_mem_kstrjoin (hnul : ∀ str ∈ strs, 0 ∉ str) (hdelim : delim ≠ 0 ∨ strs.length ≤ 1) :
    0 ∉ Kaku.kstrjoin delim strs := by
  induction strs with
  | nil => exact List.not_mem_nil
  | cons str strs ih =>
    have hstr := hnul str List.mem_cons_self
    cases strs with
    | nil => exact hstr
    | cons next strs =>
      have hne : delim ≠ 0 := hdelim.resolve_right (by simp)
      rw [Kaku.kstrjoin, List.mem_append, List.mem_cons, not_or, not_or]
      exact ⟨hstr, hne.symm, ih (fun str hs => hnul str (List.mem_cons_of_mem _ hs)) (.inl hne)⟩

/-- The segments are no longer than the string. -/
theorem lengths_kstrsplit_le (str : List UInt8) (delim : UInt8) : lengths (Kaku.kstrsplit str delim) +
    (Kaku.kstrsplit str delim).length ≤ str.length + 1 := by
  by_cases hempty : Kaku.kstrsplit str delim = []
  · rw [hempty]
    exact Nat.zero_le _
  · have hshort : (withoutEnd str delim).length ≤ str.length := by
      unfold withoutEnd
      split
      · rw [List.length_dropLast]
        exact Nat.sub_le _ _
      · exact le_rfl
    rw [← length_kstrjoin delim hempty, kstrjoin_kstrsplit]
    omega

theorem splitJoin_spec (hs : s.Sound) (hnul : 0 ∉ str) (hlen : str.length + 1 < 2 ^ 32) :
    Meets (Stops (str.length + 1)) (fun r => r.2.Sound ∧ s.KeepsAll r.2 ∧
      ∃ n c, r.2.Owns r.1 n c ∧ Begins n c (withoutEnd str delim ++ [0])) (s.splitJoin str delim) := by
  refine (kstrsplit_spec delim hs hnul hlen).bind ?_
  rintro ⟨da, s₁⟩ ⟨hs₁, data, capacity, ptrs, h₁, hkeeps₁⟩
  have htotal := lengths_kstrsplit_le str delim
  refine ((kstrjoin_spec delim hs₁ h₁ (by omega)).mono_error fun _ hstops =>
    hstops.mono htotal).mono ?_
  rintro ⟨result, s'⟩ ⟨hs', hkeeps', n, c, hown, hbegins⟩
  rw [kstrjoin_kstrsplit] at hbegins
  exact ⟨hs', fun p n c hp => hkeeps' _ _ _ (hkeeps₁ p n c hp), n, c, hown, hbegins⟩

theorem joinSplit_spec (hs : s.Sound) (h : s.HasStrings da data capacity ptrs strs)
    (hlen : lengths strs + strs.length < 2 ^ 32) (hstrs : ∀ str ∈ strs, delim ∉ str)
    (hlast : strs.getLast? ≠ some []) (hdelim : delim ≠ 0 ∨ strs.length ≤ 1) :
    Meets (Stops (lengths strs + strs.length)) (fun r => r.2.Sound ∧ s.KeepsAll r.2 ∧
      ∃ data' capacity' ptrs', r.2.HasStrings r.1 data' capacity' ptrs' strs)
      (s.joinSplit da delim) := by
  have hjoined := nul_not_mem_kstrjoin h.nul hdelim
  refine (kstrjoin_spec delim hs h hlen).bind ?_
  rintro ⟨result, s₁⟩ ⟨hs₁, hkeeps₁, n, c, hown, hbegins⟩
  have hfits := hbegins.string.1
  have hlt := hown.lt_heapLen hs₁
  have hshort : (Kaku.kstrjoin delim strs).length + 1 < 2 ^ 31 := by
    simp only [show heapLen = 2 ^ 22 from rfl] at hlt
    omega
  have hsplit := kstrsplit_spec delim hs₁ hjoined (by omega)
  refine .step (cstr_spec hs₁ hown hbegins hjoined) ((hsplit.mono_error fun _ hstops =>
    .inl (hstops.resolve_right fun hhang => by omega)).mono ?_)
  rintro ⟨da', s'⟩ ⟨hs', data', capacity', ptrs', h', hkeeps'⟩
  rw [kstrsplit_joined hstrs hlast] at h'
  exact ⟨hs', fun p n c hp => hkeeps' _ _ _ (hkeeps₁ p n c hp), data', capacity', ptrs', h'⟩

end HeapUse

end Kaku
