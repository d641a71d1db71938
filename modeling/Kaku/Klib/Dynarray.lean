-- SUMMARY: `dynarray`: an array of pointers on the heap that grows, and the list that it stands for.
import Kaku.Klib.Stdmem

/-!
# `lib/src/dynarray.h`

A `dynarray` has three fields of four bytes: the address of the elements, their count and the
capacity. It is passed on by its address, and the elements move when it grows.
-/

namespace Kaku

namespace HeapUse

def dynarrayNew (size : Nat) (s : HeapUse) : K (Nat × HeapUse) := do
  let (da, s) ← s.kmalloc 12
  let (data, s) ← s.kmalloc (addr32 (size * 4))
  let s ← s.store da 0 4 data
  let s ← s.store da 4 4 0
  let s ← s.store da 8 4 size
  pure (da, s)

/-- The start of `dynarray_add`: twice the capacity, if there is no room. -/
def dynarrayGrow (da : Nat) (s : HeapUse) : K HeapUse := do
  let count ← s.load da 4 4
  let capacity ← s.load da 8 4
  if capacity < addr32 (count + 1) then
    let data ← s.load da 0 4
    let (data, s) ← s.krealloc data (addr32 (capacity * 4)) (addr32 (addr32 (capacity * 2) * 4))
    let s ← s.store da 0 4 data
    let capacity ← s.load da 8 4
    s.store da 8 4 (addr32 (capacity * 2))
  else pure s

def dynarrayAdd (da : Nat) (elt : UInt32) (s : HeapUse) : K HeapUse := do
  let s ← s.dynarrayGrow da
  let data ← s.load da 0 4
  let count ← s.load da 4 4
  let s ← s.store data (count * 4) 4 elt.toNat
  let count ← s.load da 4 4
  s.store da 4 4 (addr32 (count + 1))

/-- The loop of `dynarray_remove`. -/
def removeLoop (da : Nat) : (fuel i : Nat) → HeapUse → K HeapUse
  | 0, _, _ => .error .hang
  | fuel + 1, i, s => do
    let count ← s.load da 4 4
    if i < sub32 count 1 then
      let data ← s.load da 0 4
      let elt ← s.load data ((i + 1) * 4) 4
      let s ← s.store data (i * 4) 4 elt
      removeLoop da fuel (i + 1) s
    else .ok s

def dynarrayRemove (da index : Nat) (s : HeapUse) : K HeapUse := do
  let count ← s.load da 4 4
  if count ≤ index then pure s
  else
    let s ← s.removeLoop da count index
    let count ← s.load da 4 4
    s.store da 4 4 (sub32 count 1)

def dynarrayRemoveLast (da : Nat) (s : HeapUse) : K (UInt32 × HeapUse) := do
  let count ← s.load da 4 4
  if 0 < count then
    let data ← s.load da 0 4
    let elt ← s.load data (sub32 count 1 * 4) 4
    let s ← s.store da 4 4 (sub32 count 1)
    pure (UInt32.ofNat elt, s)
  else pure (0, s)

def dynarrayGet (da index : Nat) (s : HeapUse) : K UInt32 := do
  let count ← s.load da 4 4
  if count ≤ index then pure 0
  else
    let data ← s.load da 0 4
    let elt ← s.load data (index * 4) 4
    pure (UInt32.ofNat elt)

/-! ## The list -/

/-- The fields of a `dynarray`. -/
structure Fields (c : Mem) (data count capacity : Nat) : Prop where
  data : c.load 0 4 = data
  count : c.load 4 4 = count
  capacity : c.load 8 4 = capacity

/-- The elements, one behind the other. -/
def Items (c : Mem) (elems : List UInt32) : Prop :=
  ∀ k v, elems[k]? = some v → c.load (k * 4) 4 = v.toNat

/-- The `dynarray` at `da` has these elements. -/
structure HasArray (s : HeapUse) (da data capacity : Nat) (elems : List UInt32) : Prop where
  fields : ∃ c, s.Owns da 12 c ∧ Fields c data elems.length capacity
  items : ∃ c, s.Owns data (capacity * 4) c ∧ Items c elems
  apart : data ≠ da
  room : elems.length ≤ capacity
  pos : 0 < capacity

/-- What is in an allocation that is not the array's. -/
structure Other (s : HeapUse) (da data p n : Nat) (c : Mem) : Prop where
  owns : s.Owns p n c
  ne_da : p ≠ da
  ne_data : p ≠ data

variable {s s' : HeapUse} {da data data' count capacity index : Nat} {elt : UInt32}
variable {elems : List UInt32} {c c' : Mem} {v i : Nat}

theorem Fields.storeData (h : Fields c data count capacity) (hv : v < 2 ^ 32) :
    Fields (c.store 0 4 v) v count capacity where
  data := Mem.load_store_word hv
  count := by rw [Mem.load_store_of_disjoint (by omega), h.count]
  capacity := by rw [Mem.load_store_of_disjoint (by omega), h.capacity]

theorem Fields.storeCount (h : Fields c data count capacity) (hv : v < 2 ^ 32) :
    Fields (c.store 4 4 v) data v capacity where
  data := by rw [Mem.load_store_of_disjoint (by omega), h.data]
  count := Mem.load_store_word hv
  capacity := by rw [Mem.load_store_of_disjoint (by omega), h.capacity]

theorem Fields.storeCapacity (h : Fields c data count capacity) (hv : v < 2 ^ 32) :
    Fields (c.store 8 4 v) data count v where
  data := by rw [Mem.load_store_of_disjoint (by omega), h.data]
  count := by rw [Mem.load_store_of_disjoint (by omega), h.count]
  capacity := Mem.load_store_word hv

theorem Items.nil : Items c [] := by
  intro k v hk
  cases hk

/-- Behind the elements there is room for another one. -/
theorem Items.store (h : Items c elems) :
    Items (c.store (elems.length * 4) 4 elt.toNat) (elems ++ [elt]) := by
  intro k v hk
  rw [List.getElem?_append] at hk
  split at hk
  · rw [Mem.load_store_of_disjoint (by omega)]
    exact h k v hk
  · rename_i hlast
    obtain rfl : k = elems.length := by
      obtain ⟨hlt, -⟩ := List.getElem?_eq_some_iff.1 hk
      rw [List.length_singleton] at hlt
      omega
    rw [Nat.sub_self, List.getElem?_cons_zero, Option.some.injEq] at hk
    rw [← hk]
    exact Mem.load_store_word elt.toNat_lt

/-- An element is overwritten. -/
theorem Items.set (h : Items c elems) :
    Items (c.store (i * 4) 4 elt.toNat) (elems.set i elt) := by
  intro k v hk
  rw [List.getElem?_set] at hk
  split at hk
  · rename_i hself
    obtain ⟨-, hk⟩ := Option.ite_none_right_eq_some.1 hk
    cases hk
    rw [← hself]
    exact Mem.load_store_word elt.toNat_lt
  · rw [Mem.load_store_of_disjoint (by omega)]
    exact h k v hk

theorem Items.congr (h : Items c elems) (hc : ∀ i < elems.length * 4, c' i = c i) :
    Items c' elems := by
  intro k v hk
  obtain ⟨hlt, -⟩ := List.getElem?_eq_some_iff.1 hk
  rw [← h k v hk]
  exact Mem.load_congr fun x _ hx => hc x (by omega)

theorem Items.sublist {elems' : List UInt32} (h : Items c elems) (hp : elems' <+: elems) :
    Items c elems' := by
  intro k v hk
  obtain ⟨rest, rfl⟩ := hp
  obtain ⟨hlt, -⟩ := List.getElem?_eq_some_iff.1 hk
  exact h k v (by rwa [List.getElem?_append_left hlt])

/-! ## The operations on the list -/

/-- The elements fit into the heap. -/
theorem HasArray.capacity_lt (hs : s.Sound) (h : s.HasArray da data capacity elems) :
    capacity < 2 ^ 20 := by
  obtain ⟨c, hown, -⟩ := h.items
  have hlt := hown.lt_heapLen hs
  simp only [show heapLen = 2 ^ 22 from rfl] at hlt
  omega

theorem HasArray.load_data (h : s.HasArray da data capacity elems) : s.load da 0 4 = .ok data := by
  obtain ⟨c, hown, hfields⟩ := h.fields
  rw [load_spec hown (by omega), hfields.data]

theorem HasArray.load_count (h : s.HasArray da data capacity elems) :
    s.load da 4 4 = .ok elems.length := by
  obtain ⟨c, hown, hfields⟩ := h.fields
  rw [load_spec hown (by omega), hfields.count]

theorem HasArray.load_capacity (h : s.HasArray da data capacity elems) :
    s.load da 8 4 = .ok capacity := by
  obtain ⟨c, hown, hfields⟩ := h.fields
  rw [load_spec hown (by omega), hfields.capacity]

theorem HasArray.load_item (h : s.HasArray da data capacity elems)
    (hi : elems[i]? = some elt) : s.load data (i * 4) 4 = .ok elt.toNat := by
  obtain ⟨c, hown, hitems⟩ := h.items
  obtain ⟨hlt, -⟩ := List.getElem?_eq_some_iff.1 hi
  have hroom := h.room
  rw [load_spec hown (by omega), hitems i elt hi]

/-- What an operation keeps of the allocations that are not the array's. -/
def KeepsOther (s s' : HeapUse) (da data data' : Nat) : Prop :=
  ∀ p n c, s.Other da data p n c → s'.Other da data' p n c

theorem Keeps.other (h : s.Keeps s' da) : s.KeepsOther s' da data data :=
  fun p n c ho => ⟨h p n c ho.ne_da ho.owns, ho.ne_da, ho.ne_data⟩

theorem Keeps.other_data (h : s.Keeps s' data) : s.KeepsOther s' da data data :=
  fun p n c ho => ⟨h p n c ho.ne_data ho.owns, ho.ne_da, ho.ne_data⟩

theorem KeepsOther.trans {s₁ s₂ s₃ : HeapUse} {d₁ d₂ d₃ : Nat} (h : s₁.KeepsOther s₂ da d₁ d₂)
    (h' : s₂.KeepsOther s₃ da d₂ d₃) : s₁.KeepsOther s₃ da d₁ d₃ :=
  fun p n c ho => h' p n c (h p n c ho)

/-- A new count, which makes it another list. -/
theorem HasArray.storeCount {elems' : List UInt32} (hs : s.Sound)
    (h : s.HasArray da data capacity elems) (hdata : s.Owns data (capacity * 4) c')
    (hitems : Items c' elems') (hroom : elems'.length ≤ capacity) :
    ∃ s', s.store da 4 4 elems'.length = .ok s' ∧ s'.Sound ∧ s'.HasArray da data capacity elems' ∧
      s.KeepsOther s' da data data := by
  obtain ⟨c, hown, hfields⟩ := h.fields
  have hlt := h.capacity_lt hs
  obtain ⟨s', hstore, hs', hown', hkeeps⟩ :=
    store_spec 4 4 elems'.length hs hown (by omega)
  exact ⟨s', hstore, hs', ⟨⟨_, hown', hfields.storeCount (by omega)⟩,
    ⟨c', hkeeps _ _ _ h.apart hdata, hitems⟩, h.apart, hroom, h.pos⟩, hkeeps.other⟩

theorem dynarrayNew_spec {size : Nat} (hs : s.Sound) (hpos : 0 < size) (hsize : size ≤ 2 ^ 20) :
    Meets OutOfMemory (fun r => r.2.Sound ∧ r.1 < 2 ^ 32 ∧ ∃ data, r.2.HasArray r.1 data size [] ∧
      ∀ p n c, s.Owns p n c → r.2.Other r.1 data p n c) (s.dynarrayNew size) := by
  have hbytes : addr32 (size * 4) = size * 4 := Nat.mod_eq_of_lt (by omega)
  rw [dynarrayNew, hbytes]
  refine (kmalloc_spec hs (by omega)).bind ?_
  rintro ⟨da, s₁⟩ ⟨hs₁, hfresh₁, hda, ⟨c₁, hobj₁⟩, hkeeps₁⟩
  refine (kmalloc_spec hs₁ (by omega)).bind ?_
  rintro ⟨data, s₂⟩ ⟨hs₂, hfresh₂, hdata, ⟨d, hitems₂⟩, hkeeps₂⟩
  have hne : da ≠ data := hfresh₂ _ hobj₁.live
  have hobj₂ := hkeeps₂ da 12 c₁ hne hobj₁
  obtain ⟨s₃, hstore₃, hs₃, hobj₃, hkeeps₃⟩ :=
    store_spec 0 4 data hs₂ hobj₂ (by omega)
  obtain ⟨s₄, hstore₄, hs₄, hobj₄, hkeeps₄⟩ :=
    store_spec 4 4 0 hs₃ hobj₃ (by omega)
  obtain ⟨s₅, hstore₅, hs₅, hobj₅, hkeeps₅⟩ :=
    store_spec 8 4 size hs₄ hobj₄ (by omega)
  have hkeeps := (hkeeps₃.trans hkeeps₄).trans hkeeps₅
  have hfields : Fields (((c₁.store 0 4 data).store 4 4 0).store 8 4 size) data 0 size :=
    (((⟨rfl, rfl, rfl⟩ : Fields c₁ _ _ _).storeData hdata).storeCount (by omega)).storeCapacity
      (by omega)
  refine .step hstore₃ (.step hstore₄ (.step hstore₅ ⟨hs₅, hda, data,
    ⟨⟨_, hobj₅, hfields⟩, ⟨d, hkeeps _ _ _ hne.symm hitems₂, .nil⟩, hne.symm, Nat.zero_le _, hpos⟩,
    fun p n c hown => ?_⟩))
  have hda' : p ≠ da := hfresh₁ _ hown.live
  have hown₁ := hkeeps₁ p n c hda' hown
  have hdata' : p ≠ data := hfresh₂ _ hown₁.live
  exact ⟨hkeeps _ _ _ hda' (hkeeps₂ _ _ _ hdata' hown₁), hda', hdata'⟩

/-- Behind `dynarray_grow` there is room. -/
theorem dynarrayGrow_spec (hs : s.Sound) (h : s.HasArray da data capacity elems) :
    Meets OutOfMemory (fun s' => s'.Sound ∧ ∃ data' capacity',
      s'.HasArray da data' capacity' elems ∧ elems.length < capacity' ∧
      s.KeepsOther s' da data data') (s.dynarrayGrow da) := by
  have hcap := h.capacity_lt hs
  have hroom := h.room
  have hpos := h.pos
  have hcount : addr32 (elems.length + 1) = elems.length + 1 := Nat.mod_eq_of_lt (by omega)
  rw [dynarrayGrow, h.load_count, ok_bind, h.load_capacity, ok_bind, hcount]
  split
  · rename_i hfull
    have hold : addr32 (capacity * 4) = capacity * 4 := Nat.mod_eq_of_lt (by omega)
    have hdouble : addr32 (capacity * 2) = capacity * 2 := Nat.mod_eq_of_lt (by omega)
    have hnew : addr32 (capacity * 2 * 4) = capacity * 2 * 4 := Nat.mod_eq_of_lt (by omega)
    rw [h.load_data, ok_bind, hold, hdouble, hnew]
    obtain ⟨d, hdata, hitems⟩ := h.items
    obtain ⟨c, hobj, hfields⟩ := h.fields
    refine (krealloc_spec hs hdata (by omega) (by omega)).bind ?_
    rintro ⟨data', s₁⟩ ⟨hs₁, hfresh₁, hlt, ⟨d', hdata₁, hsame⟩, hkeeps₁⟩
    have hne : da ≠ data' := hfresh₁ _ hobj.live
    have hobj₁ := hkeeps₁ da 12 c h.apart.symm hobj
    obtain ⟨s₂, hstore₂, hs₂, hobj₂, hkeeps₂⟩ :=
      store_spec 0 4 data' hs₁ hobj₁ (by omega)
    have hfields₂ : Fields (c.store 0 4 data') data' elems.length capacity := hfields.storeData hlt
    have hload : s₂.load da 8 4 = .ok capacity := by
      rw [load_spec hobj₂ (by omega), hfields₂.capacity]
    obtain ⟨s₃, hstore₃, hs₃, hobj₃, hkeeps₃⟩ :=
      store_spec 8 4 (capacity * 2) hs₂ hobj₂ (by omega)
    have hkeeps := hkeeps₂.trans hkeeps₃
    refine .step hstore₂ (.step hload ?_)
    rw [hdouble, hstore₃]
    refine ⟨hs₃, data', capacity * 2, ⟨⟨_, hobj₃, hfields₂.storeCapacity (by omega)⟩,
      ⟨d', hkeeps _ _ _ hne.symm hdata₁, hitems.congr fun i hi => hsame i (by omega)⟩, hne.symm,
      by omega, by omega⟩, by omega, fun p n e ho => ?_⟩
    exact ⟨hkeeps _ _ _ ho.ne_da (hkeeps₁ p n e ho.ne_data ho.owns), ho.ne_da,
      hfresh₁ _ ho.owns.live⟩
  · exact ⟨hs, data, capacity, h, by omega, fun p n e ho => ho⟩

/-- An element behind the others, where there is room for it: the element, and the count. -/
theorem HasArray.push (elt : UInt32) (hs : s.Sound) (h : s.HasArray da data capacity elems)
    (hroom : elems.length < capacity) :
    ∃ s₁ s', s.store data (elems.length * 4) 4 elt.toNat = .ok s₁ ∧
      s₁.HasArray da data capacity elems ∧ s₁.store da 4 4 (elems.length + 1) = .ok s' ∧ s'.Sound ∧
      s'.HasArray da data capacity (elems ++ [elt]) ∧ s.KeepsOther s' da data data := by
  obtain ⟨d, hdata, hitems⟩ := h.items
  obtain ⟨c, hobj, hfields⟩ := h.fields
  obtain ⟨s₁, hstore₁, hs₁, hdata₁, hkeeps₁⟩ :=
    store_spec (elems.length * 4) 4 elt.toNat hs hdata (by omega)
  have hnew : Items (d.store (elems.length * 4) 4 elt.toNat) (elems ++ [elt]) := hitems.store
  have h₁ : s₁.HasArray da data capacity elems :=
    ⟨⟨c, hkeeps₁ _ _ _ h.apart.symm hobj, hfields⟩,
      ⟨_, hdata₁, hnew.sublist (List.prefix_append _ _)⟩, h.apart, h.room, h.pos⟩
  have hlen : (elems ++ [elt]).length = elems.length + 1 := List.length_append
  obtain ⟨s', hstore', hs', h', hother'⟩ := h₁.storeCount hs₁ hdata₁ hnew (by omega)
  rw [hlen] at hstore'
  exact ⟨s₁, s', hstore₁, h₁, hstore', hs', h', hkeeps₁.other_data.trans hother'⟩

theorem dynarrayAdd_spec (elt : UInt32) (hs : s.Sound) (h : s.HasArray da data capacity elems) :
    Meets OutOfMemory (fun s' => s'.Sound ∧ ∃ data' capacity',
      s'.HasArray da data' capacity' (elems ++ [elt]) ∧ s.KeepsOther s' da data data')
      (s.dynarrayAdd da elt) := by
  rw [dynarrayAdd]
  refine (dynarrayGrow_spec hs h).bind ?_
  rintro s₁ ⟨hs₁, data', capacity', h₁, hroom, hother₁⟩
  have hcap := h₁.capacity_lt hs₁
  obtain ⟨s₂, s', hstore₂, h₂, hstore', hs', h', hother'⟩ := h₁.push elt hs₁ hroom
  have hcount : addr32 (elems.length + 1) = elems.length + 1 := Nat.mod_eq_of_lt (by omega)
  refine .step h₁.load_data (.step h₁.load_count (.step hstore₂ (.step h₂.load_count ?_)))
  rw [hcount, hstore']
  exact ⟨hs', data', capacity', h', hother₁.trans hother'⟩

/-! ## Removing -/

/-- The elements behind `index`, as far as `i`, have moved to the front by one. -/
def shifted (elems : List UInt32) (index i : Nat) : List UInt32 :=
  (elems.eraseIdx index).take i ++ elems.drop i

theorem length_shifted (index : Nat) (hi : i < elems.length) (hindex : index < elems.length) :
    (shifted elems index i).length = elems.length := by
  rw [shifted, List.length_append, List.length_take, List.length_drop,
    List.length_eraseIdx_of_lt hindex]
  omega

theorem getElem?_shifted {k : Nat} (hi : i < elems.length) (hindex : index ≤ i) :
    (shifted elems index i)[k]? = if index ≤ k ∧ k < i then elems[k + 1]? else elems[k]? := by
  have hlen : (elems.eraseIdx index).length = elems.length - 1 :=
    List.length_eraseIdx_of_lt (by omega)
  rw [shifted, List.getElem?_append, List.length_take, hlen]
  by_cases hk : k < i
  · rw [if_pos (by omega), List.getElem?_take_of_lt hk, List.getElem?_eraseIdx]
    by_cases hlow : k < index
    · rw [if_pos hlow, if_neg (by omega)]
    · rw [if_neg hlow, if_pos (by omega)]
  · rw [if_neg (by omega), List.getElem?_drop, if_neg (by omega)]
    congr 1
    omega

theorem shifted_start (hindex : index < elems.length) : shifted elems index index = elems := by
  apply List.ext_getElem?
  intro k
  rw [getElem?_shifted hindex le_rfl, if_neg (by omega)]

/-- The next element moves. -/
theorem shifted_next (elems : List UInt32) (hi : i + 1 < elems.length) (hindex : index ≤ i) :
    (shifted elems index i)[i + 1]? = some elems[i + 1] ∧
      (shifted elems index i).set i elems[i + 1] = shifted elems index (i + 1) := by
  have hnext := List.getElem?_eq_getElem hi
  have hlen := length_shifted index (show i < elems.length by omega) (by omega)
  refine ⟨?_, List.ext_getElem? fun k => ?_⟩
  · rw [getElem?_shifted (by omega) hindex, if_neg (by omega), hnext]
  · rw [List.getElem?_set, getElem?_shifted (by omega) hindex, getElem?_shifted hi (by omega)]
    by_cases hself : i = k
    · rw [if_pos hself, if_pos (by omega), if_pos (by omega), ← hself, hnext]
    · rw [if_neg hself]
      refine if_congr ?_ rfl rfl
      omega

theorem HasArray.storeItem (i : Nat) (elt : UInt32) (hs : s.Sound) (h : s.HasArray da data capacity elems)
    (hi : i < elems.length) : ∃ s', s.store data (i * 4) 4 elt.toNat = .ok s' ∧ s'.Sound ∧
      s'.HasArray da data capacity (elems.set i elt) ∧ s.KeepsOther s' da data data := by
  obtain ⟨c, hobj, hfields⟩ := h.fields
  obtain ⟨d, hdata, hitems⟩ := h.items
  have hroom := h.room
  have hlen : (elems.set i elt).length = elems.length := List.length_set
  obtain ⟨s', hstore, hs', hdata', hkeeps⟩ :=
    store_spec (i * 4) 4 elt.toNat hs hdata (by omega)
  exact ⟨s', hstore, hs', ⟨⟨c, hkeeps _ _ _ h.apart.symm hobj, hlen ▸ hfields⟩,
    ⟨_, hdata', hitems.set⟩, h.apart, hlen ▸ hroom, h.pos⟩, hkeeps.other_data⟩

theorem removeLoop_spec (elems : List UInt32) (fuel i n : Nat) (hs : s.Sound) (hn : i + n + 1 = elems.length)
    (hfuel : n < fuel) (hindex : index ≤ i)
    (h : s.HasArray da data capacity (shifted elems index i)) :
    ∃ s', s.removeLoop da fuel i = .ok s' ∧ s'.Sound ∧
      s'.HasArray da data capacity (shifted elems index (elems.length - 1)) ∧
      s.KeepsOther s' da data data := by
  have hlen := length_shifted index (show i < elems.length by omega) (by omega)
  have hcount : sub32 elems.length 1 = elems.length - 1 := sub32_of_le (by omega)
  induction n generalizing s i fuel with
  | zero =>
    obtain ⟨fuel, rfl⟩ := Nat.exists_eq_add_one_of_ne_zero (Nat.ne_of_gt hfuel)
    refine ⟨s, ?_, hs, ?_, fun p n c ho => ho⟩
    · rw [removeLoop, h.load_count, ok_bind, hlen, hcount, if_neg (by omega)]
    · rwa [← hn]
  | succ n ih =>
    obtain ⟨fuel, rfl⟩ := Nat.exists_eq_add_one_of_ne_zero (Nat.ne_of_gt (Nat.zero_lt_of_lt hfuel))
    obtain ⟨hnext, hset⟩ := shifted_next elems (show i + 1 < elems.length by omega) hindex
    obtain ⟨s₁, hstore, hs₁, h₁, hother₁⟩ :=
      h.storeItem i elems[i + 1] hs (by omega)
    rw [hset] at h₁
    obtain ⟨s', hloop, hs', h', hother'⟩ := ih fuel (i + 1) hs₁ (by omega) (by omega)
      (by omega) h₁ (length_shifted index (by omega) (by omega))
    refine ⟨s', ?_, hs', h', hother₁.trans hother'⟩
    rw [removeLoop, h.load_count, ok_bind, hlen, hcount, if_pos (by omega), h.load_data, ok_bind,
      h.load_item hnext, ok_bind, hstore, ok_bind, hloop]

theorem dynarrayRemove_spec (index : Nat) (hs : s.Sound) (h : s.HasArray da data capacity elems) :
    ∃ s', s.dynarrayRemove da index = .ok s' ∧ s'.Sound ∧
      s'.HasArray da data capacity (elems.eraseIdx index) ∧ s.KeepsOther s' da data data := by
  rw [dynarrayRemove, h.load_count, ok_bind]
  by_cases hout : elems.length ≤ index
  · rw [if_pos hout, List.eraseIdx_of_length_le hout]
    exact ⟨s, rfl, hs, h, fun p n c ho => ho⟩
  · have hlt : index < elems.length := Nat.lt_of_not_le hout
    have hlen : (elems.eraseIdx index).length = elems.length - 1 := List.length_eraseIdx_of_lt hlt
    have hroom := h.room
    rw [if_neg hout]
    obtain ⟨s₁, hloop, hs₁, h₁, hother₁⟩ := removeLoop_spec elems elems.length
      index (elems.length - 1 - index) hs (by omega) (by omega) le_rfl
      (by rwa [shifted_start hlt])
    have hprefix : elems.eraseIdx index <+: shifted elems index (elems.length - 1) := by
      rw [shifted, List.take_of_length_le hlen.le]
      exact List.prefix_append _ _
    obtain ⟨d, hdata, hitems⟩ := h₁.items
    obtain ⟨s', hstore, hs', h', hother'⟩ :=
      h₁.storeCount hs₁ hdata (hitems.sublist hprefix) (by omega)
    refine ⟨s', ?_, hs', h', hother₁.trans hother'⟩
    have hshift := length_shifted index (show elems.length - 1 < elems.length by omega) hlt
    rw [hloop, ok_bind, h₁.load_count, ok_bind, hshift, sub32_of_le (by omega), ← hlen, hstore]

theorem dynarrayRemoveLast_spec (hs : s.Sound) (h : s.HasArray da data capacity elems) :
    ∃ s', s.dynarrayRemoveLast da = .ok (elems.getLast?.getD 0, s') ∧ s'.Sound ∧
      s'.HasArray da data capacity elems.dropLast ∧ s.KeepsOther s' da data data := by
  rw [dynarrayRemoveLast, h.load_count, ok_bind]
  by_cases hempty : elems = []
  · subst hempty
    exact ⟨s, rfl, hs, h, fun p n c ho => ho⟩
  · have hpos := List.length_pos_of_ne_nil hempty
    have hlast : elems[elems.length - 1]? = some (elems.getLast hempty) := by
      rw [← List.getLast?_eq_getElem?, List.getLast?_eq_some_getLast]
    have hlen : elems.dropLast.length = elems.length - 1 := List.length_dropLast
    have hroom := h.room
    obtain ⟨d, hdata, hitems⟩ := h.items
    obtain ⟨s', hstore, hs', h', hother⟩ :=
      h.storeCount hs hdata (hitems.sublist (List.dropLast_prefix elems)) (by omega)
    refine ⟨s', ?_, hs', h', hother⟩
    rw [if_pos hpos, h.load_data, ok_bind, sub32_of_le hpos, h.load_item hlast, ok_bind, ← hlen,
      hstore, ok_bind, List.getLast?_eq_some_getLast hempty, Option.getD_some, UInt32.ofNat_toNat]
    rfl

theorem dynarrayGet_spec (h : s.HasArray da data capacity elems) :
    s.dynarrayGet da index = .ok (elems[index]?.getD 0) := by
  rw [dynarrayGet, h.load_count, ok_bind]
  by_cases hout : elems.length ≤ index
  · rw [if_pos hout, List.getElem?_eq_none hout]
    rfl
  · have hget := List.getElem?_eq_getElem (Nat.lt_of_not_le hout)
    rw [if_neg hout, h.load_data, ok_bind, h.load_item hget, ok_bind, hget, Option.getD_some,
      UInt32.ofNat_toNat]
    rfl

/-! ## Runs -/

inductive ArrayOp
  | add (elt : UInt32)
  | remove (index : Nat)
  | removeLast
  | get (index : Nat)

namespace ArrayOp

/-- The operation on the array at `da`, and the pointer that it returns. -/
def run (da : Nat) (s : HeapUse) : ArrayOp → K (Option UInt32 × HeapUse)
  | .add elt => do
    let s ← s.dynarrayAdd da elt
    pure (none, s)
  | .remove index => do
    let s ← s.dynarrayRemove da index
    pure (none, s)
  | .removeLast => do
    let (elt, s) ← s.dynarrayRemoveLast da
    pure (some elt, s)
  | .get index => do
    let elt ← s.dynarrayGet da index
    pure (some elt, s)

/-- The operation on a list. A pointer that is missing is null. -/
def onList (elems : List UInt32) : ArrayOp → Option UInt32 × List UInt32
  | .add elt => (none, elems ++ [elt])
  | .remove index => (none, elems.eraseIdx index)
  | .removeLast => (some (elems.getLast?.getD 0), elems.dropLast)
  | .get index => (some (elems[index]?.getD 0), elems)

/-- The operations in order, with all they return. -/
def runAll (da : Nat) : List ArrayOp → HeapUse → K (List (Option UInt32) × HeapUse)
  | [], s => .ok ([], s)
  | op :: ops, s => do
    let (result, s) ← op.run da s
    let (results, s) ← runAll da ops s
    pure (result :: results, s)

def onListAll : List ArrayOp → List UInt32 → List (Option UInt32) × List UInt32
  | [], elems => ([], elems)
  | op :: ops, elems =>
    let (result, elems) := op.onList elems
    let (results, elems) := onListAll ops elems
    (result :: results, elems)

theorem run_spec (op : ArrayOp) (hs : s.Sound) (h : s.HasArray da data capacity elems) :
    Meets OutOfMemory (fun r => r.1 = (op.onList elems).1 ∧ r.2.Sound ∧ ∃ data' capacity',
      r.2.HasArray da data' capacity' (op.onList elems).2) (op.run da s) := by
  cases op with
  | add elt =>
    refine (dynarrayAdd_spec elt hs h).bind ?_
    rintro s' ⟨hs', data', capacity', h', -⟩
    exact ⟨rfl, hs', data', capacity', h'⟩
  | remove index =>
    obtain ⟨s', hremove, hs', h', -⟩ := dynarrayRemove_spec index hs h
    exact .step hremove ⟨rfl, hs', data, capacity, h'⟩
  | removeLast =>
    obtain ⟨s', hremove, hs', h', -⟩ := dynarrayRemoveLast_spec hs h
    exact .step hremove ⟨rfl, hs', data, capacity, h'⟩
  | get index => exact .step (dynarrayGet_spec h) ⟨rfl, hs, data, capacity, h⟩

theorem runAll_spec (ops : List ArrayOp) (hs : s.Sound) (h : s.HasArray da data capacity elems) :
    Meets OutOfMemory (fun r => r.1 = (onListAll ops elems).1 ∧ r.2.Sound ∧ ∃ data' capacity',
      r.2.HasArray da data' capacity' (onListAll ops elems).2) (runAll da ops s) := by
  induction ops generalizing s data capacity elems with
  | nil => exact ⟨rfl, hs, data, capacity, h⟩
  | cons op ops ih =>
    refine (op.run_spec hs h).bind ?_
    rintro ⟨result, s₁⟩ ⟨hresult, hs₁, data₁, capacity₁, h₁⟩
    refine (ih hs₁ h₁).bind ?_
    rintro ⟨results, s'⟩ ⟨hresults, hs', data', capacity', h'⟩
    refine ⟨?_, hs', data', capacity', h'⟩
    rw [show result = _ from hresult, show results = _ from hresults]
    rfl

end ArrayOp

/-- A new array and the operations on it, with its address and all that is returned. -/
def dynarrayRun (size : Nat) (ops : List ArrayOp) (s : HeapUse) :
    K (Nat × List (Option UInt32) × HeapUse) := do
  let (da, s) ← s.dynarrayNew size
  let (results, s) ← ArrayOp.runAll da ops s
  pure (da, results, s)

/-- From any state of the heap: unless it is exhausted, all that the operations return is what they
return on a list, no access is outside of the allocation it is meant for, and then the array has the
elements of that list, within its capacity. -/
theorem dynarray_is_list {kernelPhysEnd size : Nat} {usableEntry : MmapEntry} {mem : Mem}
    {es : List HeapEvent} {ops : List ArrayOp}
    (hroom : kernelPhysEnd + kernelVirtBaseAddr + heapLen ≤ 2 ^ 32)
    (hrun : Run (Guarded Allowed HeapUse.step) ⟨kheapInit kernelPhysEnd usableEntry mem, []⟩ es s)
    (hpos : 1 ≤ size) (hsize : size ≤ 2 ^ 20) :
    Meets OutOfMemory (fun r => r.2.1 = (ArrayOp.onListAll ops []).1 ∧ ∃ data capacity,
      r.2.2.HasArray r.1 data capacity (ArrayOp.onListAll ops []).2 ∧
      (ArrayOp.onListAll ops []).2.length ≤ capacity) (s.dynarrayRun size ops) := by
  obtain ⟨free, hinv, -⟩ := run_inv hroom hrun
  refine (dynarrayNew_spec ⟨free, hinv⟩ hpos hsize).bind ?_
  rintro ⟨da, s₁⟩ ⟨hs₁, -, data₁, h₁, -⟩
  refine (ArrayOp.runAll_spec ops hs₁ h₁).bind ?_
  rintro ⟨results, s'⟩ ⟨hresults, -, data, capacity, h⟩
  exact ⟨hresults, data, capacity, h, h.room⟩

/-- Two elements in an array that had room for one. -/
theorem dynarray_is_list_two : ∃ da s', dynarrayRun 1
    [.add 5, .add 6, .remove 0, .get 0, .get 1, .removeLast, .removeLast]
    ⟨kheapInit 0x33f30 ⟨0x100000, 0x7ee0000⟩ fun _ => 0xAA, []⟩ =
      .ok (da, [none, none, none, some 6, some 0, some 6, some 0], s') := by
  have hmeets := @dynarray_is_list _ 0x33f30 1 ⟨0x100000, 0x7ee0000⟩ (fun _ => 0xAA) []
    [.add 5, .add 6, .remove 0, .get 0, .get 1, .removeLast, .removeLast] (by decide) (.refl _) le_rfl
    (by decide)
  have hreturns : (dynarrayRun 1
      [.add 5, .add 6, .remove 0, .get 0, .get 1, .removeLast, .removeLast]
      ⟨kheapInit 0x33f30 ⟨0x100000, 0x7ee0000⟩ fun _ => 0xAA, []⟩).isOk = true := by
    decide +kernel
  rcases hmeets.cases with ⟨⟨da, results, s'⟩, hok, hresults, -⟩ | ⟨e, herror, -⟩
  · exact ⟨da, s', by rw [hok, show results = _ from hresults]; rfl⟩
  · rw [herror] at hreturns
    cases hreturns

end HeapUse

end Kaku
