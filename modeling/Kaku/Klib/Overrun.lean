-- SUMMARY: Joining strings of 4 GiB and more: the length is added up in 32 bits, and the copies do not fit.
import Kaku.Klib.Split

/-!
# Strings that are too long together

The same string can be in a list more than once, so that a list on a heap of 4 MiB can have more
characters than 32 bits count.
-/

namespace Kaku

namespace HeapUse

variable {s s' : HeapUse} {da data capacity p q n k off i : Nat} {c c' : Mem} {delim : UInt8}
variable {strs : List (List UInt8)} {ptrs : List UInt32} {size least : Nat}

/-! ## Writing past the end -/

theorem store_wild {v : Nat} (hs : s.Sound) (h : s.Owns p n c) (hk : n < off + k) :
    s.store p off k v = .error .wild := by
  obtain ⟨free, hinv⟩ := hs
  refine if_neg fun hwithin => ?_
  obtain ⟨a, ha, hptr, hsize⟩ := hwithin
  obtain rfl := hinv.eq_of_ptr ha h.live hptr
  simp only at hsize
  omega

/-- A copy that does not fit stops at the end of the allocation. -/
theorem kmemcpy_wild {dstOff srcOff len : Nat} (hs : s.Sound) (hdst : s.Owns p n c)
    (hsrc : s.Owns q k c') (hne : q ≠ p) (hd : dstOff ≤ n) (hover : n < dstOff + len)
    (hsr : srcOff + len ≤ k) : s.kmemcpy p dstOff q srcOff len = .error .wild := by
  induction len generalizing s c dstOff srcOff with
  | zero => omega
  | succ len ih =>
    rw [kmemcpy, load_spec hsrc (by omega), ok_bind]
    rcases Nat.eq_or_lt_of_le hd with hend | hroom
    · rw [store_wild hs hdst (by omega)]
      rfl
    · obtain ⟨s₁, hstore, hs₁, hdst₁, hkeeps₁⟩ :=
        store_spec dstOff 1 (c'.load srcOff 1) hs hdst (by omega)
      rw [hstore, ok_bind]
      exact ih hs₁ hdst₁ (hkeeps₁ q k c' hne hsrc) (by omega) (by omega) (by omega)

theorem joinLoop_wild {rest : List UInt32} {result : Nat} (delim : UInt8) (fuel i cursor : Nat)
    (hs : s.Sound)
    (h : s.HasArray da data capacity ptrs) (hrest : ptrs.drop i = rest) (hi : i ≤ ptrs.length)
    (hstrs : List.Forall₂ (s.Str da data) rest strs) (hfuel : strs.length < fuel)
    (hresult : s.Owns result n c) (hda : da ≠ result) (hdata : data ≠ result)
    (hptrs : ∀ ptr ∈ rest, ptr.toNat ≠ result) (hcursor : cursor ≤ n)
    (hover : n < cursor + (Kaku.kstrjoin delim strs).length) (hn : n < 2 ^ 32) :
    joinLoop da delim result fuel i cursor s = .error .wild := by
  induction strs generalizing s c i rest fuel cursor with
  | nil =>
    rw [Kaku.kstrjoin, List.length_nil] at hover
    omega
  | cons str strs ih =>
    obtain ⟨fuel, rfl⟩ := Nat.exists_eq_add_one_of_ne_zero (Nat.ne_of_gt (Nat.zero_lt_of_lt hfuel))
    obtain ⟨ptr, rest', hstr, hstrs', rfl⟩ := List.forall₂_cons_right_iff.1 hstrs
    obtain ⟨hlt, hget, hnext⟩ := h.get_drop hrest
    have hne : ptr.toNat ≠ result := hptrs ptr List.mem_cons_self
    have hptrs' : ∀ p ∈ rest', p.toNat ≠ result := fun p hp => hptrs p (List.mem_cons_of_mem _ hp)
    obtain ⟨hnul, m, d, hother, hbegins⟩ := id hstr
    have hfits := hbegins.string.1
    rw [joinLoop, h.load_count, ok_bind, if_pos hlt, hget, ok_bind, hstr.kstrlen hs, ok_bind]
    rcases Nat.lt_or_ge n (cursor + str.length) with hlong | hshort
    · rw [kmemcpy_wild hs hresult hother.owns hne hcursor hlong (by omega)]
      rfl
    obtain ⟨s₁, hcopy, hs₁, hresult₁, hkeeps₁⟩ := 
      kmemcpy_spec cursor 0 str.length hs hresult hother.owns hne hshort (by omega)
    have h₁ := hkeeps₁.array h hda hdata
    have hcursor₁ : addr32 (cursor + str.length) = cursor + str.length := Nat.mod_eq_of_lt (by omega)
    rw [hcopy, ok_bind, (hstr.keeps hkeeps₁ hne).kstrlen hs₁, ok_bind, hcursor₁, h₁.load_count,
      ok_bind, sub32_of_le (by omega)]
    cases strs with
    | nil =>
      rw [Kaku.kstrjoin] at hover
      omega
    | cons next strs =>
      have hmore : i + 1 < ptrs.length := by
        obtain ⟨p, rest'', -, -, rfl⟩ := List.forall₂_cons_right_iff.1 hstrs'
        by_contra hend
        rw [List.drop_eq_nil_iff.2 (by omega)] at hnext
        cases hnext
      rw [Kaku.kstrjoin, List.length_append, List.length_cons] at hover
      rw [if_pos (by omega)]
      rcases Nat.eq_or_lt_of_le hshort with hend | hroom
      · rw [store_wild hs₁ hresult₁ (by omega)]
        rfl
      obtain ⟨s₂, hstore, hs₂, hresult₂, hkeeps₂⟩ := 
        store_spec (cursor + str.length) 1 delim.toNat hs₁ hresult₁ (by omega)
      have hkeeps := hkeeps₁.trans hkeeps₂
      have hcursor₂ : addr32 (cursor + str.length + 1) = cursor + str.length + 1 :=
        Nat.mod_eq_of_lt (by omega)
      rw [List.length_cons] at hfuel
      rw [hstore, ok_bind, hcursor₂]
      exact ih fuel (i + 1) _ hs₂ (hkeeps.array h hda hdata) hnext hlt
        (strs_keep hstrs' hkeeps hptrs') (by omega) hresult₂ hptrs' (by omega) (by omega)

/-- The buffer for strings of 4 GiB and more is too short: `kstrjoin` writes past its end. -/
theorem kstrjoin_overruns {r : Nat × HeapUse} (hs : s.Sound)
    (h : s.HasStrings da data capacity ptrs strs) (hlen : 2 ^ 32 ≤ lengths strs + strs.length)
    (halloc : s.kmallocLeast 15 (addr32 (lengths strs + strs.length)) = .ok r) :
    s.kstrjoin da delim = .error .wild := by
  have hcount := h.strs.length_eq
  have hsize : addr32 (addr32 (0 + lengths strs) + ptrs.length) =
      addr32 (lengths strs + strs.length) := by
    rw [hcount, addr32, addr32, Nat.mod_add_mod, Nat.zero_add]
    rfl
  have hlt : addr32 (lengths strs + strs.length) < 2 ^ 32 := Nat.mod_lt _ (by decide)
  obtain ⟨result, s₁⟩ := r
  obtain ⟨hs₁, hfresh, -, ⟨c, hresult⟩, hkeeps₁⟩ :=
    (kmallocLeast_spec 15 hs hlt (by omega)).of_ok halloc
  obtain ⟨e, hobj, -⟩ := h.array.fields
  obtain ⟨d, hitems, -⟩ := h.array.items
  have hfirst := joinedLen_spec (ptrs.length + 1) 0 0 hs h.array
    (List.drop_zero) (Nat.zero_le _) h.strs (by omega) (by omega)
  have hshort := hresult.lt_heapLen hs₁
  simp only [show heapLen = 2 ^ 22 from rfl] at hshort
  have hne : strs ≠ [] := by
    rintro rfl
    exact absurd hlen (by decide)
  have hjoined := length_kstrjoin delim hne
  have hptrs := strs_fresh h.strs hfresh
  have hda : da ≠ result := hfresh _ hobj.live
  have hdata : data ≠ result := hfresh _ hitems.live
  have hwild := joinLoop_wild delim (ptrs.length + 1) 0 0 hs₁
    (hkeeps₁.array h.array hda hdata) (List.drop_zero) (Nat.zero_le _)
    (strs_keep h.strs hkeeps₁ hptrs) (by omega) hresult hda hdata hptrs (Nat.zero_le _) (by omega)
    (by omega)
  rw [HeapUse.kstrjoin, h.array.load_count, ok_bind, hfirst, ok_bind, hsize, halloc, ok_bind]
  simp only [hwild, error_bind]

/-! ## One string, many times -/

/-- Whether `kmalloc` returns depends on the heads of the lists. -/
theorem kmallocLeast_returns {r : Nat × HeapUse} (hfree : s'.heap.freeBlocks = s.heap.freeBlocks)
    (h : s.kmallocLeast least size = .ok r) : ∃ r', s'.kmallocLeast least size = .ok r' := by
  rw [kmallocLeast, KHeap.kheapAlloc] at h ⊢
  obtain ⟨⟨heap, ptr⟩, halloc, -⟩ := bind_eq_ok.1 h
  obtain ⟨order, horder, halloc⟩ := bind_eq_ok.1 halloc
  rw [hfree, horder, ok_bind]
  split at halloc
  · cases halloc
  · exact ⟨_, rfl⟩

theorem store_freeBlocks {v : Nat} (h : s.store p off k v = .ok s') :
    s'.heap.freeBlocks = s.heap.freeBlocks := by
  unfold store at h
  split at h
  · cases h
    rfl
  · cases h

theorem putBytes_freeBlocks {bytes : List UInt8} (h : s.putBytes p off bytes = .ok s') :
    s'.heap.freeBlocks = s.heap.freeBlocks := by
  induction bytes generalizing s off with
  | nil =>
    cases h
    rfl
  | cons b bytes ih =>
    obtain ⟨s₁, hstore, hput⟩ := bind_eq_ok.1 h
    exact (ih hput).trans (store_freeBlocks hstore)

/-- The same element, as often as there is room for it. -/
theorem HasArray.fill {m : Nat} (elt : UInt32) (hs : s.Sound) (h : s.HasArray da data capacity [])
    (hm : m ≤ capacity) : ∃ s', s'.Sound ∧ s'.HasArray da data capacity (List.replicate m elt) ∧
      s.KeepsOther s' da data data ∧ s'.heap.freeBlocks = s.heap.freeBlocks := by
  induction m with
  | zero => exact ⟨s, hs, h, fun p n c ho => ho, rfl⟩
  | succ m ih =>
    obtain ⟨s₁, hs₁, h₁, hother₁, hfree₁⟩ := ih (by omega)
    obtain ⟨s₂, s', hstore₂, -, hstore', hs', h', hother'⟩ :=
      h₁.push elt hs₁ (by rw [List.length_replicate]; omega)
    rw [← List.replicate_succ'] at h'
    exact ⟨s', hs', h', hother₁.trans hother',
      ((store_freeBlocks hstore').trans (store_freeBlocks hstore₂)).trans hfree₁⟩

/-- A list with the same string `m` times. -/
theorem HasArray.fillStrings {str : List UInt8} {m : Nat} (hs : s.Sound)
    (h : s.HasArray da data capacity []) (hown : s.Owns p n c) (hlt : p < 2 ^ 32) (hda : da ≠ p)
    (hdata : data ≠ p) (hnul : 0 ∉ str) (hroom : str.length < n) (hm : m ≤ capacity) :
    ∃ (s' : HeapUse) (ptrs : List UInt32), s'.Sound ∧ s'.HasStrings da data capacity ptrs (List.replicate m str) ∧
      s'.heap.freeBlocks = s.heap.freeBlocks := by
  obtain ⟨s₁, hput, hs₁, hown₁, hkeeps₁⟩ := putBytes_spec str 0 hs hown (by omega)
  obtain ⟨s₂, hstore, hs₂, hown₂, hkeeps₂⟩ :=
    store_spec str.length 1 0 hs₁ hown₁ (by omega)
  have h₂ := hkeeps₂.array (hkeeps₁.array h hda hdata) hda hdata
  have hptr : (UInt32.ofNat p).toNat = p := UInt32.toNat_ofNat_of_lt hlt
  obtain ⟨s', hs', h', hother', hfree'⟩ := h₂.fill (UInt32.ofNat p) hs₂ hm
  have hstr : s'.Str da data (UInt32.ofNat p) str := by
    have hother := hother' _ _ _ ⟨hown₂, hda.symm, hdata.symm⟩
    rw [← hptr] at hother
    exact ⟨hnul, n, _, hother, begins_string hroom⟩
  refine ⟨s', _, hs', ⟨h', ?_⟩,
    hfree'.trans ((store_freeBlocks hstore).trans (putBytes_freeBlocks hput))⟩
  clear hm h'
  induction m with
  | zero => exact .nil
  | succ m ih => exact .cons hstr ih

theorem lengths_replicate {str : List UInt8} {m : Nat} :
    lengths (List.replicate m str) = m * str.length := by
  simp [lengths]

/-- An array for 2^18 pointers and an allocation for a string of 16 KiB. -/
def sharedRun : K (Nat × Nat × HeapUse) := do
  let (da, s) ← dynarrayNew (2 ^ 18) ⟨kheapInit 0x33f30 ⟨0x100000, 0x7ee0000⟩ fun _ => 0xAA, []⟩
  let (p, s) ← s.kmalloc (2 ^ 14 + 1)
  pure (da, p, s)

/-- Behind it the heap has room for the buffer that `kstrjoin` asks for. -/
theorem sharedRun_returns : ∃ da p s r, sharedRun = .ok (da, p, s) ∧
    s.kmallocLeast 15 (2 ^ 18) = .ok r := by
  have hreturns : (sharedRun.bind fun r => r.2.2.kmallocLeast 15 (2 ^ 18)).toOption.any
      (fun _ => true) = true := by decide +kernel
  obtain ⟨r, hr, -⟩ := toOption_any.1 hreturns
  obtain ⟨⟨da, p, s⟩, hshared, halloc⟩ := bind_eq_ok.1 hr
  exact ⟨da, p, s, r, hshared, halloc⟩

/-- With 2^18 pointers to a string of 16 KiB, `kstrjoin` writes past the end of its buffer. -/
theorem shared_overruns (str : List UInt8) (hnul : 0 ∉ str) (hlen : str.length = 2 ^ 14) :
    ∃ s da data ptrs, Sound s ∧
      s.HasStrings da data (2 ^ 18) ptrs (List.replicate (2 ^ 18) str) ∧
      ∀ delim, s.kstrjoin da delim = .error .wild := by
  have hinit := (@Inv.init 0x33f30 ⟨0x100000, 0x7ee0000⟩ (fun _ => 0xAA) (by decide)).1
  obtain ⟨da, p, s₂, r, hshared, halloc⟩ := sharedRun_returns
  obtain ⟨⟨da', s₁⟩, hnew, hshared⟩ := bind_eq_ok.1 hshared
  obtain ⟨⟨p', s₂'⟩, hkmalloc, hshared⟩ := bind_eq_ok.1 hshared
  cases hshared
  obtain ⟨hs₁, -, data, h₁, -⟩ :=
    (dynarrayNew_spec ⟨_, hinit⟩ (by decide) (by decide)).of_ok hnew
  obtain ⟨hs₂, hfresh, hp, ⟨c, hown₂⟩, hkeeps₂⟩ := (kmalloc_spec hs₁ (by decide)).of_ok hkmalloc
  obtain ⟨e, hobj, -⟩ := h₁.fields
  obtain ⟨d, hdata, -⟩ := h₁.items
  have hda := hfresh _ hobj.live
  have hne := hfresh _ hdata.live
  obtain ⟨s, ptrs, hs, h, hfree⟩ := (hkeeps₂.array h₁ hda hne).fillStrings hs₂ hown₂ hp hda hne hnul
    (by rw [hlen]; exact Nat.lt_succ_self _) le_rfl
  obtain ⟨r', halloc'⟩ := kmallocLeast_returns hfree halloc
  have htotal : lengths (List.replicate (2 ^ 18) str) + (List.replicate (2 ^ 18) str).length =
      2 ^ 32 + 2 ^ 18 := by
    rw [lengths_replicate, List.length_replicate, hlen]
    omega
  refine ⟨s, da, data, ptrs, hs, h, fun delim => kstrjoin_overruns hs h ?_ (r := r') ?_⟩
  · rw [htotal]
    exact Nat.le_add_right _ _
  · rw [htotal]
    exact halloc'

end HeapUse

end Kaku
