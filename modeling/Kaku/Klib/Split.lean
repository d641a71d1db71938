-- SUMMARY: `kstrsplit` and `kstrjoin` with the buffers that they allocate.
import Kaku.Fs.Resolve
import Kaku.Klib.Dynarray

/-!
# `lib/src/string.h`

The strings of a list are in allocations of their own, and the list is a `dynarray` of their
addresses. The string that is split is read only.
-/

namespace Kaku

namespace HeapUse

/-! ## The functions -/

/-- The loop of `kstrlen`, on the allocation at `p`. An allocation is smaller than the heap. -/
def kstrlenFrom (p : Nat) (s : HeapUse) : (fuel len : Nat) → K Nat
  | 0, _ => .error .hang
  | fuel + 1, len => do
    let c ← s.load p len 1
    if c = 0 then .ok len else kstrlenFrom p s fuel (len + 1)

def kstrlen (p : Nat) (s : HeapUse) : K Nat := s.kstrlenFrom p heapLen 0

/-- `kmemcpy` from a string that is not on the heap. -/
def putBytes (p : Nat) : (off : Nat) → List UInt8 → HeapUse → K HeapUse
  | _, [], s => .ok s
  | off, b :: bs, s => do
    let s ← s.store p off 1 b.toNat
    putBytes p (off + 1) bs s

/-- A segment of `n` characters is added to the array. -/
def addSegment (da : Nat) (segment : List UInt8) (s : HeapUse) : K HeapUse := do
  let (p, s) ← s.kmalloc (addr32 (segment.length + 1))
  let s ← putBytes p 0 segment s
  let s ← s.store p segment.length 1 0
  s.dynarrayAdd da (UInt32.ofNat p)

/-- The loop of `kstrsplit`, over the last `n` characters. -/
def splitLoop (str : List UInt8) (delim : UInt8) (da : Nat) :
    (n segmentStartIndex : Nat) → HeapUse → K (Nat × HeapUse)
  | 0, segmentStartIndex, s => .ok (segmentStartIndex, s)
  | n + 1, segmentStartIndex, s =>
    let i := str.length - (n + 1)
    if str[i]? = some delim then do
      let s ← s.addSegment da ((str.drop segmentStartIndex).take (i - segmentStartIndex))
      splitLoop str delim da n (i + 1) s
    else splitLoop str delim da n segmentStartIndex s

/-- `kstrsplit`. -/
def kstrsplit (str : List UInt8) (delim : UInt8) (s : HeapUse) : K (Nat × HeapUse) := do
  let (da, s) ← s.dynarrayNew 8
  let (segmentStartIndex, s) ← splitLoop str delim da str.length 0 s
  if segmentStartIndex < str.length then
    let s ← s.addSegment da (str.drop segmentStartIndex)
    pure (da, s)
  else pure (da, s)

/-- The first loop of `kstrjoin`. -/
def joinedLen (strs : Nat) (s : HeapUse) : (fuel i strsLen : Nat) → K Nat
  | 0, _, _ => .error .hang
  | fuel + 1, i, strsLen => do
    let count ← s.load strs 4 4
    if i < count then
      let str ← s.dynarrayGet strs i
      let len ← s.kstrlen str.toNat
      joinedLen strs s fuel (i + 1) (addr32 (strsLen + len))
    else .ok strsLen

/-- The second loop of `kstrjoin`. -/
def joinLoop (strs : Nat) (delim : UInt8) (result : Nat) :
    (fuel i stringCursor : Nat) → HeapUse → K (Nat × HeapUse)
  | 0, _, _, _ => .error .hang
  | fuel + 1, i, stringCursor, s => do
    let count ← s.load strs 4 4
    if i < count then
      let str ← s.dynarrayGet strs i
      let len ← s.kstrlen str.toNat
      let s ← s.kmemcpy result stringCursor str.toNat 0 len
      let len ← s.kstrlen str.toNat
      let stringCursor := addr32 (stringCursor + len)
      let count ← s.load strs 4 4
      if i < sub32 count 1 then
        let s ← s.store result stringCursor 1 delim.toNat
        joinLoop strs delim result fuel (i + 1) (addr32 (stringCursor + 1)) s
      else joinLoop strs delim result fuel (i + 1) stringCursor s
    else .ok (stringCursor, s)

/-- `kstrjoin`. Without strings, no byte is asked for and one is used. -/
def kstrjoin (strs : Nat) (delim : UInt8) (s : HeapUse) : K (Nat × HeapUse) := do
  let count ← s.load strs 4 4
  let strsLen ← s.joinedLen strs (count + 1) 0 0
  let (result, s) ← s.kmallocLeast 15 (addr32 (strsLen + count))
  let (stringCursor, s) ← joinLoop strs delim result (count + 1) 0 0 s
  let s ← s.store result stringCursor 1 0
  pure (result, s)

/-! ## Strings on the heap -/

/-- The first bytes of an allocation of `n` bytes. -/
def Begins (n : Nat) (c : Mem) (bytes : List UInt8) : Prop :=
  bytes.length ≤ n ∧ c.peek 0 bytes.length = bytes

/-- The string at `p`, in an allocation that is not the array's. -/
def Str (s : HeapUse) (da data : Nat) (p : UInt32) (str : List UInt8) : Prop :=
  0 ∉ str ∧ ∃ n c, s.Other da data p.toNat n c ∧ Begins n c (str ++ [0])

/-- The array at `da` is a list of strings. -/
structure HasStrings (s : HeapUse) (da data capacity : Nat) (ptrs : List UInt32)
    (strs : List (List UInt8)) : Prop where
  array : s.HasArray da data capacity ptrs
  strs : List.Forall₂ (s.Str da data) ptrs strs

variable {s s' : HeapUse} {da data data' capacity p n off i : Nat} {c : Mem}
variable {str bytes segment : List UInt8} {strs : List (List UInt8)} {ptrs : List UInt32}
variable {ptr : UInt32} {delim : UInt8}

theorem begins_iff : Begins n c bytes ↔
    bytes.length ≤ n ∧ ∀ k (hk : k < bytes.length), c k = bytes[k] := by
  unfold Begins
  rw [Mem.peek_eq_iff]
  simp only [Nat.zero_add]

theorem Str.keepsOther (h : s.KeepsOther s' da data data') (hstr : s.Str da data ptr str) :
    s'.Str da data' ptr str := by
  obtain ⟨hnul, n, c, hother, hbegins⟩ := hstr
  exact ⟨hnul, n, c, h _ _ _ hother, hbegins⟩

/-- All that is allocated is kept. -/
def KeepsAll (s s' : HeapUse) : Prop := ∀ p n c, s.Owns p n c → s'.Owns p n c

theorem KeepsAll.other (h : s.KeepsAll s') : s.KeepsOther s' da data data :=
  fun p n c ho => ⟨h p n c ho.owns, ho.ne_da, ho.ne_data⟩

theorem KeepsAll.array (h : s.KeepsAll s') (harray : s.HasArray da data capacity ptrs) :
    s'.HasArray da data capacity ptrs := by
  obtain ⟨c, hobj, hfields⟩ := harray.fields
  obtain ⟨d, hdata, hitems⟩ := harray.items
  exact ⟨⟨c, h _ _ _ hobj, hfields⟩, ⟨d, h _ _ _ hdata, hitems⟩, harray.apart, harray.room,
    harray.pos⟩

/-- A string, character by character. -/
theorem Begins.string (h : Begins n c (str ++ [0])) : str.length < n ∧ c str.length = 0 ∧
    ∀ k (hk : k < str.length), c k = str[k] := by
  obtain ⟨hle, hbytes⟩ := begins_iff.1 h
  have hlen : (str ++ [0]).length = str.length + 1 := List.length_append
  refine ⟨by omega, ?_, fun k hk => ?_⟩
  · rw [hbytes _ (by omega), List.getElem_append_right le_rfl, List.getElem_singleton]
  · rw [hbytes _ (by omega), List.getElem_append_left hk]

theorem toNat_ne_zero_of_string (hnul : 0 ∉ str) (hi : i < str.length) : (str[i]).toNat ≠ 0 := by
  intro hzero
  have hmem : str[i] ∈ str := List.getElem_mem hi
  rw [UInt8.toNat_inj.1 (hzero.trans UInt8.toNat_zero.symm)] at hmem
  exact hnul hmem

/-- `kstrlen` ends at the zero byte. -/
theorem kstrlenFrom_spec {fuel len m : Nat} (h : s.Owns p n c) (hbegins : Begins n c (str ++ [0]))
    (hnul : 0 ∉ str) (hlen : len + m = str.length) (hfuel : m < fuel) :
    s.kstrlenFrom p fuel len = .ok str.length := by
  obtain ⟨hle, hend, hchars⟩ := hbegins.string
  induction m generalizing len fuel with
  | zero =>
    obtain ⟨fuel, rfl⟩ := Nat.exists_eq_add_one_of_ne_zero (Nat.ne_of_gt hfuel)
    rw [Nat.add_zero] at hlen
    rw [kstrlenFrom, load_spec h (by omega), ok_bind, Mem.load_one, hlen, hend, UInt8.toNat_zero,
      if_pos rfl]
  | succ m ih =>
    obtain ⟨fuel, rfl⟩ := Nat.exists_eq_add_one_of_ne_zero (Nat.ne_of_gt (Nat.zero_lt_of_lt hfuel))
    rw [kstrlenFrom, load_spec h (by omega), ok_bind, Mem.load_one, hchars len (by omega),
      if_neg (toNat_ne_zero_of_string hnul (by omega))]
    exact ih (by omega) (by omega)

theorem Str.kstrlen (hs : s.Sound) (h : s.Str da data ptr str) :
    s.kstrlen ptr.toNat = .ok str.length := by
  obtain ⟨hnul, n, c, hother, hbegins⟩ := h
  have hlt := hother.owns.lt_heapLen hs
  have hle := hbegins.string.1
  exact kstrlenFrom_spec hother.owns hbegins hnul (Nat.zero_add _) (by omega)

/-- The bytes of a list in an allocation. -/
def ofList (bytes : List UInt8) : Mem := fun k => bytes.getD k 0

theorem putBytes_spec (bytes : List UInt8) (off : Nat) (hs : s.Sound) (h : s.Owns p n c) (hroom : off + bytes.length ≤ n) :
    ∃ s', s.putBytes p off bytes = .ok s' ∧ s'.Sound ∧
      s'.Owns p n (c.blit off bytes.length (ofList bytes)) ∧ s.Keeps s' p := by
  induction bytes generalizing s c off with
  | nil => 
    refine ⟨s, rfl, hs, h.congr fun i _ => ?_, .refl⟩
    rw [Mem.blit_of_not_mem (by rw [List.length_nil]; omega)]
  | cons b bytes ih =>
    rw [List.length_cons] at hroom
    obtain ⟨s₁, hstore, hs₁, h₁, hkeeps₁⟩ :=
      store_spec off 1 b.toNat hs h (by omega)
    obtain ⟨s', hput, hs', h', hkeeps'⟩ := ih (off + 1) hs₁ h₁ (by omega)
    refine ⟨s', by rw [putBytes, hstore, ok_bind, hput], hs', ?_, hkeeps₁.trans hkeeps'⟩
    rw [List.length_cons, Mem.blit_succ]
    exact h'

/-- A string in an allocation, with the zero byte behind it. -/
theorem begins_string (hroom : str.length < n) :
    Begins n ((c.blit 0 str.length (ofList str)).store str.length 1 0) (str ++ [0]) := by
  have hlen : (str ++ [0]).length = str.length + 1 := List.length_append
  refine begins_iff.2 ⟨by omega, fun k hk => ?_⟩
  have hstore : (c.blit 0 str.length (ofList str)).store str.length 1 0 k =
      if k = str.length then 0 else c.blit 0 str.length (ofList str) k := Mem.store_one (b := 0)
  rw [hstore]
  by_cases hlast : k = str.length
  · rw [if_pos hlast, List.getElem_append_right (by omega), List.getElem_singleton]
  · have hlt : k < str.length := by omega
    rw [if_neg hlast, Mem.blit_of_mem (Nat.zero_le _) (by omega), List.getElem_append_left hlt,
      Nat.sub_zero, ofList, List.getD_eq_getElem _ _ hlt]

theorem addSegment_spec (hs : s.Sound) (h : s.HasStrings da data capacity ptrs strs)
    (hnul : 0 ∉ segment) (hlen : segment.length + 1 < 2 ^ 32) :
    Meets (Stops (segment.length + 1)) (fun s' => s'.Sound ∧ ∃ data' capacity' ptr,
      s'.HasStrings da data' capacity' (ptrs ++ [ptr]) (strs ++ [segment]) ∧
      s.KeepsOther s' da data data') (s.addSegment da segment) := by
  obtain ⟨d, hdata, hitems⟩ := h.array.items
  obtain ⟨e, hobj, hfields⟩ := h.array.fields
  have hbytes : addr32 (segment.length + 1) = segment.length + 1 := Nat.mod_eq_of_lt hlen
  rw [addSegment, hbytes]
  refine (kmalloc_stops hs hlen).bind ?_
  rintro ⟨p, s₁⟩ ⟨hs₁, hfresh, hp, ⟨c, hown₁⟩, hkeeps₁⟩
  have hda : p ≠ da := (hfresh _ hobj.live).symm
  have hdata' : p ≠ data := (hfresh _ hdata.live).symm
  obtain ⟨s₂, hput, hs₂, hown₂, hkeeps₂⟩ := 
    putBytes_spec segment 0 hs₁ hown₁ (by omega)
  obtain ⟨s₃, hstore, hs₃, hown₃, hkeeps₃⟩ :=
    store_spec segment.length 1 0 hs₂ hown₂ (by omega)
  have hkept : s.KeepsAll s₃ := fun q m f hq => by
    have hne := hfresh _ hq.live
    exact hkeeps₃ _ _ _ hne (hkeeps₂ _ _ _ hne (hkeeps₁ _ _ _ hne hq))
  refine .step hput (.step hstore ?_)
  refine ((dynarrayAdd_spec (UInt32.ofNat p) hs₃ (hkept.array h.array)).mono_error
    fun _ => .inl).mono ?_
  rintro s' ⟨hs', data', capacity', harray', hother⟩
  have hptr : (UInt32.ofNat p).toNat = p := UInt32.toNat_ofNat_of_lt hp
  refine ⟨hs', data', capacity', _, ⟨harray', ?_⟩, hkept.other.trans hother⟩
  have hnew := hother _ _ _ ⟨hown₃, hda, hdata'⟩
  rw [← hptr] at hnew
  exact List.rel_append (h.strs.imp fun _ _ hstr => hstr.keepsOther (hkept.other.trans hother))
    (.cons ⟨hnul, _, _, hnew, begins_string (Nat.lt_succ_self _)⟩ .nil)

/-! ## Splitting -/

/-- The loop ends with all segments in the array, but the one that it is in. -/
theorem splitLoop_spec (delim : UInt8) (start : Nat) (hs : s.Sound)
    (h : s.HasStrings da data capacity ptrs strs)
    (hnul : 0 ∉ str) (hlen : str.length + 1 < 2 ^ 32) (hn : n ≤ str.length)
    (hstart : start ≤ str.length - n)
    (hsplit : strs ++ kstrsplitFrom delim ((str.drop start).take (str.length - n - start))
      (str.drop (str.length - n)) = Kaku.kstrsplit str delim) :
    Meets (Stops (str.length + 1)) (fun r => r.2.Sound ∧ ∃ data' capacity' ptrs' strs',
      r.2.HasStrings da data' capacity' ptrs' strs' ∧ s.KeepsOther r.2 da data data' ∧
      strs' ++ kstrsplitFrom delim (str.drop r.1) [] = Kaku.kstrsplit str delim)
      (splitLoop str delim da n start s) := by
  induction n generalizing s data capacity ptrs strs start with
  | zero =>
    refine ⟨hs, data, capacity, ptrs, strs, h, fun p n c ho => ho, ?_⟩
    rwa [Nat.sub_zero, List.drop_length, List.take_of_length_le (by rw [List.length_drop])] at hsplit
  | succ n ih =>
    obtain ⟨i, hi⟩ : ∃ i, i = str.length - (n + 1) := ⟨_, rfl⟩
    have hlt : i < str.length := by omega
    have hnext : str.length - n = i + 1 := by omega
    have hget := List.getElem?_eq_getElem hlt
    rw [← hi, List.drop_eq_getElem_cons hlt, kstrsplitFrom] at hsplit
    rw [hnext] at ih
    rw [splitLoop]
    simp only [← hi, hget, Option.some.injEq]
    split
    · rename_i hdelim
      have hseg : 0 ∉ (str.drop start).take (i - start) := fun hmem =>
        hnul (List.mem_of_mem_drop (List.mem_of_mem_take hmem))
      have hshort : ((str.drop start).take (i - start)).length + 1 ≤ str.length + 1 := by
        rw [List.length_take, List.length_drop]
        omega
      rw [if_pos hdelim] at hsplit
      refine ((addSegment_spec hs h hseg (by omega)).mono_error fun _ hstops =>
        hstops.mono hshort).bind ?_
      rintro s₁ ⟨hs₁, data₁, capacity₁, ptr, h₁, hother₁⟩
      refine (ih (i + 1) hs₁ h₁ (by omega) le_rfl ?_).mono ?_
      · rw [Nat.sub_self, List.take_zero, List.append_assoc]
        exact hsplit
      · rintro r ⟨hs', data', capacity', ptrs', strs', h', hother', hsplit'⟩
        exact ⟨hs', data', capacity', ptrs', strs', h', hother₁.trans hother', hsplit'⟩
    · rename_i hother
      rw [if_neg hother] at hsplit
      refine ih start hs h (by omega) (by omega) ?_
      have hgrow : (str.drop start).take (i + 1 - start) =
          (str.drop start).take (i - start) ++ [str[i]] := by
        have hsucc : i + 1 - start = i - start + 1 := by omega
        have hat : (str.drop start)[i - start]? = some str[i] := by
          rw [List.getElem?_drop, Nat.add_sub_cancel' (by omega), hget]
        rw [hsucc, List.take_add_one, hat]
        rfl
      rwa [hgrow]

/-- `kstrsplit` gives the segments of the string, in new allocations. -/
theorem kstrsplit_spec (delim : UInt8) (hs : s.Sound) (hnul : 0 ∉ str)
    (hlen : str.length + 1 < 2 ^ 32) :
    Meets (Stops (str.length + 1)) (fun r => r.2.Sound ∧ ∃ data capacity ptrs,
      r.2.HasStrings r.1 data capacity ptrs (Kaku.kstrsplit str delim) ∧ s.KeepsAll r.2)
      (s.kstrsplit str delim) := by
  rw [HeapUse.kstrsplit]
  refine ((dynarrayNew_spec hs (by omega) (by omega)).mono_error fun _ => .inl).bind ?_
  rintro ⟨da, s₁⟩ ⟨hs₁, -, data₁, harray₁, hkeeps₁⟩
  have h₁ : s₁.HasStrings da data₁ 8 [] [] := ⟨harray₁, .nil⟩
  refine (splitLoop_spec delim 0 hs₁ h₁ hnul hlen le_rfl (Nat.zero_le _) ?_).bind ?_
  · rw [Nat.sub_self, List.drop_zero, Nat.sub_self, List.take_zero]
    rfl
  rintro ⟨start, s₂⟩ ⟨hs₂, data₂, capacity₂, ptrs₂, strs₂, h₂, hother₂, hsplit⟩
  have hkept {s' : HeapUse} {data' : Nat} (hother : s₂.KeepsOther s' da data₂ data') :
      s.KeepsAll s' := fun p n c hown =>
    (hother _ _ _ (hother₂ _ _ _ (hkeeps₁ p n c hown))).owns
  simp only at hsplit ⊢
  split
  · rename_i hlt
    have hne : str.drop start ≠ [] := by
      rw [ne_eq, List.drop_eq_nil_iff]
      omega
    rw [kstrsplitFrom, if_neg hne] at hsplit
    have hseg : 0 ∉ str.drop start := fun hmem => hnul (List.mem_of_mem_drop hmem)
    have hshort : (str.drop start).length + 1 ≤ str.length + 1 := by
      rw [List.length_drop]
      omega
    refine ((addSegment_spec hs₂ h₂ hseg (by omega)).mono_error fun _ hstops =>
      hstops.mono hshort).bind ?_
    rintro s' ⟨hs', data', capacity', ptr, h', hother'⟩
    exact ⟨hs', data', capacity', _, hsplit ▸ h', hkept hother'⟩
  · rename_i hge
    rw [kstrsplitFrom, if_pos (List.drop_eq_nil_iff.2 (by omega)), List.append_nil] at hsplit
    exact ⟨hs₂, data₂, capacity₂, ptrs₂, hsplit ▸ h₂, hkept fun p n c ho => ho⟩

/-! ## Joining -/

/-- The characters of all strings. -/
def lengths (strs : List (List UInt8)) : Nat := (strs.map List.length).sum

/-- `kstrjoin` puts a delimiter between any two strings. -/
theorem length_kstrjoin (delim : UInt8) (hne : strs ≠ []) :
    (Kaku.kstrjoin delim strs).length + 1 = lengths strs + strs.length := by
  induction strs with
  | nil => exact absurd rfl hne
  | cons str strs ih =>
    cases strs with
    | nil => simp [Kaku.kstrjoin, lengths]
    | cons next strs =>
      have hrest := ih (List.cons_ne_nil _ _)
      simp only [Kaku.kstrjoin, lengths, List.length_append, List.length_cons, List.map_cons,
        List.sum_cons] at hrest ⊢
      omega

/-- The first pointer of those that are left. -/
theorem HasArray.get_drop {rest : List UInt32} (h : s.HasArray da data capacity ptrs)
    (hrest : ptrs.drop i = ptr :: rest) :
    i < ptrs.length ∧ s.dynarrayGet da i = .ok ptr ∧ ptrs.drop (i + 1) = rest := by
  have hget : ptrs[i]? = some ptr := by
    rw [← List.head?_drop, hrest]
    rfl
  obtain ⟨hlt, -⟩ := List.getElem?_eq_some_iff.1 hget
  refine ⟨hlt, ?_, ?_⟩
  · rw [dynarrayGet_spec h, hget, Option.getD_some]
  · rw [← List.tail_drop, hrest]
    rfl

/-- The lengths are added up in 32 bits. -/
theorem joinedLen_spec {rest : List UInt32} (fuel i strsLen : Nat) (hs : s.Sound)
    (h : s.HasArray da data capacity ptrs) (hrest : ptrs.drop i = rest) (hi : i ≤ ptrs.length)
    (hstrs : List.Forall₂ (s.Str da data) rest strs) (hfuel : strs.length < fuel)
    (hlen : strsLen < 2 ^ 32) :
    s.joinedLen da fuel i strsLen = .ok (addr32 (strsLen + lengths strs)) := by
  induction hstrs generalizing i fuel strsLen with
  | nil =>
    obtain ⟨fuel, rfl⟩ := Nat.exists_eq_add_one_of_ne_zero (Nat.ne_of_gt hfuel)
    have hend : ptrs.length ≤ i := List.drop_eq_nil_iff.1 hrest
    have hsame : addr32 (strsLen + lengths []) = strsLen := Nat.mod_eq_of_lt hlen
    rw [joinedLen, h.load_count, ok_bind, if_neg (by omega), hsame]
  | @cons ptr str rest strs hstr hstrs ih =>
    obtain ⟨fuel, rfl⟩ := Nat.exists_eq_add_one_of_ne_zero (Nat.ne_of_gt (Nat.zero_lt_of_lt hfuel))
    obtain ⟨hlt, hget, hnext⟩ := h.get_drop hrest
    have hsum : addr32 (addr32 (strsLen + str.length) + lengths strs) =
        addr32 (strsLen + lengths (str :: strs)) := by
      rw [lengths, lengths, List.map_cons, List.sum_cons, addr32, addr32, Nat.mod_add_mod,
        Nat.add_assoc]
      rfl
    have hadd : addr32 (strsLen + str.length) < 2 ^ 32 := Nat.mod_lt _ (by decide)
    rw [List.length_cons] at hfuel
    rw [joinedLen, h.load_count, ok_bind, if_pos hlt, hget, ok_bind, hstr.kstrlen hs, ok_bind,
      ih fuel (i + 1) _ hnext hlt (by omega) hadd, hsum]

/-- Bytes that are copied behind the first ones. -/
theorem Begins.blit {done : List UInt8} {src : Mem} (h : Begins n c done)
    (hroom : done.length + bytes.length ≤ n) (hsrc : ∀ k (hk : k < bytes.length), src k = bytes[k]) :
    Begins n (c.blit done.length bytes.length src) (done ++ bytes) := by
  obtain ⟨-, hbytes⟩ := begins_iff.1 h
  have hlen : (done ++ bytes).length = done.length + bytes.length := List.length_append
  refine begins_iff.2 ⟨by omega, fun k hk => ?_⟩
  by_cases hfirst : k < done.length
  · rw [Mem.blit_of_not_mem (by omega), List.getElem_append_left hfirst, hbytes k hfirst]
  · rw [Mem.blit_of_mem (by omega) (by omega), List.getElem_append_right (by omega),
      hsrc _ (by omega)]

/-- One more byte. -/
theorem Begins.store {done : List UInt8} {b : UInt8} (h : Begins n c done) (hroom : done.length < n) :
    Begins n (c.store done.length 1 b.toNat) (done ++ [b]) := by
  obtain ⟨-, hbytes⟩ := begins_iff.1 h
  have hlen : (done ++ [b]).length = done.length + 1 := List.length_append
  refine begins_iff.2 ⟨by omega, fun k hk => ?_⟩
  rw [Mem.store_one]
  by_cases hlast : k = done.length
  · rw [if_pos hlast, List.getElem_append_right (by omega), List.getElem_singleton]
  · rw [if_neg hlast, List.getElem_append_left (by omega), hbytes k (by omega)]

theorem Keeps.array {r : Nat} (hkeeps : s.Keeps s' r) (h : s.HasArray da data capacity ptrs)
    (hda : da ≠ r) (hdata : data ≠ r) : s'.HasArray da data capacity ptrs := by
  obtain ⟨c, hobj, hfields⟩ := h.fields
  obtain ⟨d, hown, hitems⟩ := h.items
  exact ⟨⟨c, hkeeps _ _ _ hda hobj, hfields⟩, ⟨d, hkeeps _ _ _ hdata hown, hitems⟩, h.apart, h.room,
    h.pos⟩

theorem Str.keeps {r : Nat} (h : s.Str da data ptr str) (hkeeps : s.Keeps s' r)
    (hne : ptr.toNat ≠ r) : s'.Str da data ptr str := by
  obtain ⟨hnul, n, c, hother, hbegins⟩ := h
  exact ⟨hnul, n, c, ⟨hkeeps _ _ _ hne hother.owns, hother.ne_da, hother.ne_data⟩, hbegins⟩

theorem strs_keep {r : Nat} (h : List.Forall₂ (s.Str da data) ptrs strs) (hkeeps : s.Keeps s' r)
    (hne : ∀ ptr ∈ ptrs, ptr.toNat ≠ r) : List.Forall₂ (s'.Str da data) ptrs strs := by
  have hboth := (List.forall₂_and_left ptrs strs).2 ⟨hne, h⟩
  exact hboth.imp fun _ _ hstr => hstr.2.keeps hkeeps hstr.1

theorem strs_fresh {r : Nat} (h : List.Forall₂ (s.Str da data) ptrs strs) (hfresh : s.Fresh r) :
    ∀ ptr ∈ ptrs, ptr.toNat ≠ r := by
  induction h with
  | nil => exact fun ptr hptr => absurd hptr List.not_mem_nil
  | cons hstr _ ih =>
    obtain ⟨-, n, c, hother, -⟩ := hstr
    exact List.forall_mem_cons.2 ⟨hfresh _ hother.owns.live, ih⟩

/-- The rest of the strings is put behind what is in the buffer. -/
theorem joinLoop_spec {rest : List UInt32} {result : Nat} (delim : UInt8) (fuel i : Nat)
    (done : List UInt8) (hs : s.Sound)
    (h : s.HasArray da data capacity ptrs) (hrest : ptrs.drop i = rest) (hi : i ≤ ptrs.length)
    (hstrs : List.Forall₂ (s.Str da data) rest strs) (hfuel : strs.length < fuel)
    (hresult : s.Owns result n c) (hda : da ≠ result) (hdata : data ≠ result)
    (hptrs : ∀ ptr ∈ rest, ptr.toNat ≠ result) (hdone : Begins n c done)
    (hroom : done.length + (Kaku.kstrjoin delim strs).length < n) (hn : n < 2 ^ 32) :
    ∃ s' c', joinLoop da delim result fuel i done.length s =
        .ok ((done ++ Kaku.kstrjoin delim strs).length, s') ∧ s'.Sound ∧
      s'.Owns result n c' ∧ Begins n c' (done ++ Kaku.kstrjoin delim strs) ∧
      s.Keeps s' result := by
  induction strs generalizing s c i rest fuel done with
  | nil =>
    obtain ⟨fuel, rfl⟩ := Nat.exists_eq_add_one_of_ne_zero (Nat.ne_of_gt hfuel)
    cases hstrs
    have hend : ptrs.length ≤ i := List.drop_eq_nil_iff.1 hrest
    refine ⟨s, c, ?_, hs, hresult, ?_, .refl⟩
    · rw [joinLoop, h.load_count, ok_bind, if_neg (by omega), Kaku.kstrjoin, List.append_nil]
    · rwa [Kaku.kstrjoin, List.append_nil]
  | cons str strs ih =>
    obtain ⟨fuel, rfl⟩ := Nat.exists_eq_add_one_of_ne_zero (Nat.ne_of_gt (Nat.zero_lt_of_lt hfuel))
    obtain ⟨ptr, rest', hstr, hstrs', rfl⟩ := List.forall₂_cons_right_iff.1 hstrs
    obtain ⟨hlt, hget, hnext⟩ := h.get_drop hrest
    have hne : ptr.toNat ≠ result := hptrs ptr List.mem_cons_self
    have hptrs' : ∀ p ∈ rest', p.toNat ≠ result := fun p hp => hptrs p (List.mem_cons_of_mem _ hp)
    have hcap := h.capacity_lt hs
    have hcount := h.room
    obtain ⟨t, hjoin⟩ := kstrjoin_cons delim str strs
    have hlen : (Kaku.kstrjoin delim (str :: strs)).length = str.length + t.length := by
      rw [hjoin, List.length_append]
    -- The string is copied.
    obtain ⟨hnul, m, d, hother, hbegins⟩ := id hstr
    obtain ⟨hfits, -, hchars⟩ := hbegins.string
    obtain ⟨s₁, hcopy, hs₁, hresult₁, hkeeps₁⟩ := 
      kmemcpy_spec done.length 0 str.length hs hresult hother.owns hne (by omega) (by omega)
    have hdone₁ : Begins n (c.blit done.length str.length fun k => d (0 + k)) (done ++ str) := by
      refine hdone.blit (by omega) fun k hk => ?_
      rw [Nat.zero_add, hchars k hk]
    have h₁ := hkeeps₁.array h hda hdata
    have hcursor : addr32 (done.length + str.length) = (done ++ str).length := by
      rw [List.length_append]
      exact Nat.mod_eq_of_lt (by omega)
    rw [joinLoop, h.load_count, ok_bind, if_pos hlt, hget, ok_bind, hstr.kstrlen hs, ok_bind, hcopy,
      ok_bind, (hstr.keeps hkeeps₁ hne).kstrlen hs₁, ok_bind, hcursor, h₁.load_count, ok_bind,
      sub32_of_le (by omega)]
    cases strs with
    | nil =>
      cases hstrs'
      have hlast : ptrs.length ≤ i + 1 := List.drop_eq_nil_iff.1 hnext
      rw [if_neg (by omega)]
      obtain ⟨s', c', hloop, hs', hresult', hbegins', hkeeps'⟩ := ih fuel (i + 1) _ hs₁ h₁ hnext hlt
        .nil (by rw [List.length_cons] at hfuel; omega) hresult₁ (by simp) hdone₁
        (by simp [Kaku.kstrjoin] at hroom ⊢; omega)
      rw [Kaku.kstrjoin, List.append_nil] at hloop hbegins'
      exact ⟨s', c', hloop, hs', hresult', hbegins', hkeeps₁.trans hkeeps'⟩
    | cons next strs =>
      have hmore : i + 1 < ptrs.length := by
        obtain ⟨p, rest'', -, -, rfl⟩ := List.forall₂_cons_right_iff.1 hstrs'
        by_contra hend
        rw [List.drop_eq_nil_iff.2 (by omega)] at hnext
        cases hnext
      have hjoined : Kaku.kstrjoin delim (str :: next :: strs) =
          str ++ delim :: Kaku.kstrjoin delim (next :: strs) := rfl
      have hbuffer : (done ++ str).length < n := by
        rw [List.length_append]
        omega
      rw [if_pos (by omega)]
      obtain ⟨s₂, hstore, hs₂, hresult₂, hkeeps₂⟩ := 
        store_spec (done ++ str).length 1 delim.toNat hs₁ hresult₁ (by omega)
      have hkeeps := hkeeps₁.trans hkeeps₂
      have hcursor₂ : addr32 ((done ++ str).length + 1) = (done ++ str ++ [delim]).length := by
        have hlast : (done ++ str ++ [delim]).length = (done ++ str).length + 1 := List.length_append
        rw [hlast]
        exact Nat.mod_eq_of_lt (by omega)
      have hdone₂ := hdone₁.store (b := delim) hbuffer
      obtain ⟨s', c', hloop, hs', hresult', hbegins', hkeeps'⟩ := ih fuel (i + 1)
        (done ++ str ++ [delim]) hs₂ (hkeeps.array h hda hdata) hnext hlt
        (strs_keep hstrs' hkeeps hptrs') (by rw [List.length_cons] at hfuel; omega) hresult₂ hptrs'
        hdone₂ (by
          rw [hjoined] at hroom
          simp only [List.length_append, List.length_cons, List.length_nil] at hroom ⊢
          omega)
      have hall : done ++ str ++ [delim] ++ Kaku.kstrjoin delim (next :: strs) =
          done ++ Kaku.kstrjoin delim (str :: next :: strs) := by
        rw [hjoined, List.append_assoc, List.append_assoc]
        rfl
      rw [hall] at hloop hbegins'
      refine ⟨s', c', ?_, hs', hresult', hbegins', hkeeps.trans hkeeps'⟩
      rw [hstore, ok_bind, hcursor₂, hloop]

/-- `kstrjoin` gives the joined string, in a new allocation. -/
theorem kstrjoin_spec (delim : UInt8) (hs : s.Sound) (h : s.HasStrings da data capacity ptrs strs)
    (hlen : lengths strs + strs.length < 2 ^ 32) :
    Meets (Stops (lengths strs + strs.length)) (fun r => r.2.Sound ∧ s.KeepsAll r.2 ∧
      ∃ n c, r.2.Owns r.1 n c ∧ Begins n c (Kaku.kstrjoin delim strs ++ [0]))
      (s.kstrjoin da delim) := by
  have hcount := h.strs.length_eq
  have hsum : addr32 (0 + lengths strs) = lengths strs := by
    rw [Nat.zero_add]
    exact Nat.mod_eq_of_lt (by omega)
  have hsize : addr32 (lengths strs + ptrs.length) = lengths strs + strs.length := by
    rw [hcount]
    exact Nat.mod_eq_of_lt hlen
  obtain ⟨e, hobj, -⟩ := h.array.fields
  obtain ⟨d, hitems, -⟩ := h.array.items
  have hfirst := joinedLen_spec (ptrs.length + 1) 0 0 hs h.array
    (List.drop_zero) (Nat.zero_le _) h.strs (by omega) (by omega)
  rw [HeapUse.kstrjoin, h.array.load_count, ok_bind, hfirst, ok_bind, hsum, hsize]
  refine (kmallocLeast_spec 15 hs hlen (by omega)).bind ?_
  rintro ⟨result, s₁⟩ ⟨hs₁, hfresh, -, ⟨c, hresult⟩, hkeeps₁⟩
  have hroom : (Kaku.kstrjoin delim strs).length < max (lengths strs + strs.length) 15 := by
    cases strs with
    | nil => exact Nat.lt_of_lt_of_le (show 0 < 15 by decide) (le_max_right _ _)
    | cons str strs =>
      have hjoined := length_kstrjoin delim (List.cons_ne_nil str strs)
      omega
  have hptrs := strs_fresh h.strs hfresh
  have hda : da ≠ result := hfresh _ hobj.live
  have hdata : data ≠ result := hfresh _ hitems.live
  obtain ⟨s₂, c₂, hloop, hs₂, hresult₂, hbegins₂, hkeeps₂⟩ := 
    joinLoop_spec delim (ptrs.length + 1) 0 [] hs₁ (hkeeps₁.array h.array hda hdata) (List.drop_zero)
    (Nat.zero_le _) (strs_keep h.strs hkeeps₁ hptrs) (by omega) hresult hda hdata
    hptrs ⟨Nat.zero_le _, rfl⟩ (by rw [List.length_nil]; omega) (by omega)
  obtain ⟨s₃, hstore, hs₃, hresult₃, hkeeps₃⟩ := 
    store_spec (Kaku.kstrjoin delim strs).length 1 (0 : UInt8).toNat hs₂ hresult₂ (by omega)
  refine .step hloop (.step hstore ⟨hs₃, fun p n f hown => ?_, _, _, hresult₃,
    hbegins₂.store (b := 0) hroom⟩)
  have hne := hfresh _ hown.live
  exact hkeeps₃ _ _ _ hne (hkeeps₂ _ _ _ hne (hkeeps₁ _ _ _ hne hown))

end HeapUse

end Kaku
