-- SUMMARY: Runs of the two allocators: what they hand out, and when they report failure.
import Kaku.Fs.InStep
import Kaku.Lib.Run

/-!
# Runs of allocations

Along any sequence of allocations on a drive that answers, the counters stay in step
with the bitmaps, and nothing is handed out twice. Whether the search comes by every
group depends on its starting point, since it adds in 32 bits before it takes the
remainder.
-/

namespace Kaku

namespace Resource

/-- How many bits of a bitmap stand for something. -/
def perGroup : Resource → Volume → Nat
  | block, v => v.sbNbBlocksInGroup
  | inode, v => v.sbNbInodesInGroup

/-- The number that bit 0 of group 0 stands for. -/
def first : Resource → Nat
  | block => 0
  | inode => 1

end Resource

/-- A call of one of the allocators, and the number that it returns. -/
structure Call where
  resource : Resource
  preferredGroup : Nat
  number : Nat

/-- What a sequence of calls hands out. -/
def handedOut (r : Resource) (calls : List Call) : List Nat :=
  (calls.filter fun c => c.resource = r ∧ c.number ≠ 0).map Call.number

namespace Mount

/-- A call takes one volume to another. -/
def Calls (fs : Mount) (v : Volume) (c : Call) (v' : Volume) : Prop :=
  fs.alloc c.resource c.preferredGroup v = .ok (c.number, v')

/-- No bit of any bitmap is clear. -/
def Full (fs : Mount) (v : Volume) (r : Resource) : Prop :=
  ∀ g < fs.nbBlockGroups, ∀ j < 8 * fs.blockSize, fs.bitOf v v r g j = true

/-- From this group on, the search comes by every group. -/
def NoSkip (fs : Mount) (preferredGroup : Nat) : Prop :=
  preferredGroup + fs.nbBlockGroups ≤ 2 ^ 32 ∨ fs.nbBlockGroups ∣ 2 ^ 32

/-- The bit behind a number is set. -/
def Marked (fs : Mount) (v : Volume) (r : Resource) (n : Nat) : Prop :=
  ∃ g i, g < fs.nbBlockGroups ∧ i < 8 * fs.blockSize ∧ i < r.perGroup v ∧
    n = g * r.perGroup v + i + r.first ∧ fs.bitOf v v r g i = true

variable {fs : Mount} {v v' w : Volume} {r r' : Resource} {g i n t preferred : Nat}
  {calls : List Call}

/-! ## The groups of a search -/

theorem NoSkip.visits (h : fs.NoSkip preferred) (hg : g < fs.nbBlockGroups) :
    ∃ k < fs.nbBlockGroups, addr32 (preferred + k) % fs.nbBlockGroups = g := by
  rw [NoSkip] at h
  generalize fs.nbBlockGroups = nb at h hg ⊢
  have hpos : 0 < nb := by omega
  have hrem := Nat.mod_lt preferred hpos
  have hdiv := Nat.div_add_mod preferred nb
  refine ⟨(g + nb - preferred % nb) % nb, Nat.mod_lt _ hpos, ?_⟩
  have hsum : (preferred + (g + nb - preferred % nb) % nb) % nb = g := by
    rw [Nat.add_mod_mod, show preferred + (g + nb - preferred % nb) =
      g + nb * (preferred / nb + 1) by rw [Nat.mul_add]; omega, Nat.add_mul_mod_self_left,
      Nat.mod_eq_of_lt hg]
  rcases h with hroom | hdvd
  · have hk := Nat.mod_lt (g + nb - preferred % nb) hpos
    have hsmall : preferred + (g + nb - preferred % nb) % nb < 2 ^ 32 := by omega
    rwa [addr32, Nat.mod_eq_of_lt hsmall]
  · rwa [addr32, Nat.mod_mod_of_dvd _ hdvd]

/-- Where the search finds nothing though it comes by every group, there is nothing. -/
theorem full_of_choice (hi : fs.Image v) (hs : fs.InStep v) (hr : fs.Reliable)
    (h : fs.choice r preferred v = none) (hskip : fs.NoSkip preferred) : fs.Full v r := by
  intro g hg j hj
  obtain ⟨k, hk, hvisit⟩ := hskip.visits hg
  cases hbit : fs.bitOf v v r g j with
  | true => rfl
  | false =>
    exfalso
    have hnone := target_eq_none (g := g) hr h hk (by rwa [Nat.zero_add])
    have hscanned := hi.lt_scanned hg hj hbit
    rcases hnone with hcount | hscan
    · have hpos := hs.count_pos hg hj hbit
      omega
    · rw [bitOf, Mem.firstClear_eq_none hscan (by omega) (by omega)] at hbit
      cases hbit

/-! ## One call -/

theorem Marked.after (h : fs.Marked v r n) : fs.Marked (v.after t) r n := by
  cases r <;> exact h

/-- A call takes a bit, or it finds none. -/
theorem alloc_cases (hi : fs.Image v) (hr : fs.Reliable) (r : Resource) (preferred : Nat) :
    (∃ t, fs.choice r preferred v = none ∧ fs.alloc r preferred v = .ok (0, v.after t)) ∨
      ∃ g i w, g < fs.nbBlockGroups ∧ i < 8 * fs.blockSize ∧ fs.bitOf v v r g i = false ∧
        fs.alloc r preferred v = .ok (r.number v g i, w) ∧ fs.Taken v r g i w := by
  cases hchoice : fs.choice r preferred v with
  | none =>
    obtain ⟨t, halloc⟩ := alloc_of_none hi.fits (hi.scanned_le r) hchoice
    exact .inl ⟨t, rfl, halloc⟩
  | some c =>
    obtain ⟨g, i, t⟩ := c
    obtain ⟨hg, -, hbit, hclear⟩ := choice_spec hi.groups (hi.scanned_le r) hchoice
    obtain ⟨w, halloc, htaken⟩ := alloc_of_write hi.fits hi.layout hr.failsOnBitmaps
      (hi.scanned_le r) hchoice (hr _ _) hi.groups
    exact .inr ⟨g, i, w, hg, hbit, hclear, halloc, htaken⟩

theorem Image.lt_perGroup (h : fs.Image v) (hg : g < fs.nbBlockGroups) (hi : i < 8 * fs.blockSize)
    (hclear : fs.bitOf v v r g i = false) : i < r.perGroup v := by
  cases r with
  | block => exact (h.blocksEnd g hg i hi hclear).1
  | inode => exact h.inodesEnd g hg i hi hclear

theorem Image.number_eq_first (h : fs.Image v) (hg : g < fs.nbBlockGroups)
    (hi : i < 8 * fs.blockSize) (hclear : fs.bitOf v v r g i = false) :
    r.number v g i = g * r.perGroup v + i + r.first := by
  rw [h.number_eq hg hi hclear]
  cases r <;> rfl

/-- The number of a clear bit has not been handed out. -/
theorem Marked.ne_number (h : fs.Marked v r n) (hi : fs.Image v) (hg : g < fs.nbBlockGroups)
    (hbit : i < 8 * fs.blockSize) (hclear : fs.bitOf v v r g i = false) :
    n ≠ r.number v g i := by
  obtain ⟨g', i', -, -, hi', rfl, hset⟩ := h
  rw [hi.number_eq_first hg hbit hclear]
  have hlt := hi.lt_perGroup hg hbit hclear
  intro heq
  have hsame : g' * r.perGroup v + i' = g * r.perGroup v + i := by omega
  have hpos : 0 < r.perGroup v := by omega
  have hdiv := congrArg (· / r.perGroup v) hsame
  have hmod := congrArg (· % r.perGroup v) hsame
  simp only [Nat.mul_add_mod_self_right, Nat.mod_eq_of_lt hlt, Nat.mod_eq_of_lt hi'] at hmod
  simp only [Nat.mul_comm _ (r.perGroup v), Nat.mul_add_div hpos, Nat.div_eq_of_lt hlt,
    Nat.div_eq_of_lt hi', Nat.add_zero] at hdiv
  rw [hdiv, hmod, hclear] at hset
  cases hset

theorem Taken.perGroup (h : fs.Taken v r g i v') : r'.perGroup v' = r'.perGroup v := by
  cases r' <;> exact h.sb_load (by omega)

theorem Taken.marked (h : fs.Taken v r g i v') (hi : fs.Image v) (hg : g < fs.nbBlockGroups)
    (hm : fs.Marked v r' n) : fs.Marked v' r' n := by
  obtain ⟨g', i', hg', hbit, hlt, hn, hset⟩ := hm
  refine ⟨g', i', hg', hbit, ?_, ?_, ?_⟩
  · rwa [h.perGroup]
  · rwa [h.perGroup]
  · rw [h.bitOf_self _ hi.layout hg hg' hbit, hset, Bool.true_or]

theorem Taken.marked_self (h : fs.Taken v r g i v') (hi : fs.Image v) (hg : g < fs.nbBlockGroups)
    (hbit : i < 8 * fs.blockSize) (hclear : fs.bitOf v v r g i = false) :
    fs.Marked v' r (r.number v g i) := by
  refine ⟨g, i, hg, hbit, ?_, ?_, ?_⟩
  · rw [h.perGroup]
    exact hi.lt_perGroup hg hbit hclear
  · rw [h.perGroup]
    exact hi.number_eq_first hg hbit hclear
  · rw [h.bitOf_self _ hi.layout hg hg hbit, decide_eq_true rfl, Bool.or_true]

/-! ## Runs -/

theorem handedOut_concat_self (hn : n ≠ 0) :
    handedOut r (calls ++ [⟨r, preferred, n⟩]) = handedOut r calls ++ [n] := by
  simp [handedOut, hn]

theorem handedOut_concat_of_ne (h : r ≠ r' ∨ n = 0) :
    handedOut r' (calls ++ [⟨r, preferred, n⟩]) = handedOut r' calls := by
  rcases h with hne | rfl
  · simp [handedOut, hne]
  · simp [handedOut]

/-- What a sequence of calls has come to. -/
structure Course (fs : Mount) (calls : List Call) (w : Volume) : Prop where
  image : fs.Image w
  inStep : fs.InStep w
  nodup : ∀ r, (handedOut r calls).Nodup
  marked : ∀ r, ∀ n ∈ handedOut r calls, fs.Marked w r n

/-- One more call. -/
theorem Course.step {c : Call} (h : fs.Course calls v) (hr : fs.Reliable) (hc : fs.Calls v c w) :
    fs.Course (calls ++ [c]) w := by
  obtain ⟨r, preferred, n⟩ := c
  rw [Calls] at hc
  rcases alloc_cases h.image hr r preferred with
    ⟨t, -, halloc⟩ | ⟨g, i, u, hg, hbit, hclear, halloc, htaken⟩
  · rw [halloc] at hc
    cases hc
    refine ⟨h.image.after, h.inStep.after, fun r' => ?_, fun r' n hn => ?_⟩
    · rw [handedOut_concat_of_ne (.inr rfl)]
      exact h.nodup r'
    · rw [handedOut_concat_of_ne (.inr rfl)] at hn
      exact (h.marked r' n hn).after
  · obtain ⟨rfl, rfl⟩ : r.number v g i = n ∧ u = w := by simpa [halloc] using hc
    have hne := h.image.number_ne_zero hg hbit hclear
    refine ⟨htaken.image h.image hg, htaken.inStep h.image h.inStep hg hbit hclear,
      fun r' => ?_, fun r' n hn => ?_⟩
    · rcases eq_or_ne r r' with rfl | hother
      · rw [handedOut_concat_self hne]
        refine List.nodup_append.2 ⟨h.nodup r, List.nodup_singleton _, fun m hm k hk => ?_⟩
        rw [List.mem_singleton.1 hk]
        exact (h.marked r m hm).ne_number h.image hg hbit hclear
      · rw [handedOut_concat_of_ne (.inl hother)]
        exact h.nodup r'
    · rcases eq_or_ne r r' with rfl | hother
      · rw [handedOut_concat_self hne, List.mem_append, List.mem_singleton] at hn
        rcases hn with hold | rfl
        · exact htaken.marked h.image hg (h.marked r n hold)
        · exact htaken.marked_self h.image hg hbit hclear
      · rw [handedOut_concat_of_ne (.inl hother)] at hn
        exact htaken.marked h.image hg (h.marked r' n hn)

theorem Course.of_run (hi : fs.Image v) (hs : fs.InStep v) (hr : fs.Reliable)
    (hrun : Run fs.Calls v calls w) : fs.Course calls w := by
  induction hrun with
  | refl => exact ⟨hi, hs, fun _ => List.nodup_nil, fun _ _ hn => nomatch hn⟩
  | snoc _ hc ih => exact ih.step hr hc

/-- After any sequence of calls the counters are in step, nothing has been handed out twice,
and the next call returns; it reports failure only on a full volume if its search comes by
every group. -/
theorem alloc_run_in_step (hi : fs.Image v) (hs : fs.InStep v) (hr : fs.Reliable)
    (hrun : Run fs.Calls v calls w) :
    fs.InStep w ∧ (∀ r, (handedOut r calls).Nodup) ∧
      ∀ r preferred, ∃ n w', fs.alloc r preferred w = .ok (n, w') ∧
        (fs.NoSkip preferred → n = 0 → fs.Full w r) := by
  have hcourse := Course.of_run hi hs hr hrun
  refine ⟨hcourse.inStep, hcourse.nodup, fun r preferred => ?_⟩
  rcases alloc_cases hcourse.image hr r preferred with
    ⟨t, hchoice, halloc⟩ | ⟨g, i, u, hg, hbit, hclear, halloc, -⟩
  · exact ⟨0, _, halloc, fun hskip _ =>
      full_of_choice hcourse.image hcourse.inStep hr hchoice hskip⟩
  · exact ⟨_, u, halloc, fun _ hzero =>
      absurd hzero (hcourse.image.number_ne_zero hg hbit hclear)⟩

/-- One block is free: the first call takes it. -/
theorem alloc_run_in_step_counted : ∃ w,
    Run tinyMount.Calls countedVolume [⟨.block, 0, 5⟩] w ∧ tinyMount.InStep w ∧
      (∀ r, (handedOut r [⟨.block, 0, 5⟩]).Nodup) ∧
      ∀ r preferred, ∃ n w', tinyMount.alloc r preferred w = .ok (n, w') ∧
        (tinyMount.NoSkip preferred → n = 0 → tinyMount.Full w r) := by
  have halloc : ((tinyMount.alloc .block 0 countedVolume).toOption.any fun p =>
      decide (p.1 = 5)) = true := by decide
  obtain ⟨⟨n, w⟩, hok, hn⟩ := toOption_any.1 halloc
  obtain rfl : n = 5 := of_decide_eq_true hn
  have hrun : Run tinyMount.Calls countedVolume [⟨.block, 0, 5⟩] w := .single hok
  exact ⟨w, hrun, alloc_run_in_step countedVolume_image countedVolume_inStep (fun _ _ => rfl) hrun⟩

/-! ## A group that the search does not come by -/

def tripleMount : Mount := { tinyMount with nbBlockGroups := 3 }

def tripleSb : Mem :=
  ((((Mem.store (fun _ => 0) 4 4 16448).store 12 4 1).store 32 4 8192).store 40 4 16)

def tripleTable : Mem :=
  (((((((Mem.store (fun _ => 0) 0 4 3).store 4 4 6).store 32 4 4).store 36 4 7).store 64 4 5).store
    68 4 8).store 76 2 1)

/-- Three groups, with the block bitmaps in blocks 3 to 5 and the inode bitmaps behind
them. The last group has a free block. -/
def tripleVolume : Volume where
  disk x :=
    if x < 2048 then tripleSb (x - 1024)
    else if x < 3072 then tripleTable (x - 2048)
    else if x = 5120 then 0xDF
    else if x < 9216 then 255
    else 0
  sb := tripleSb
  bgdt := tripleTable
  transfers := 0

theorem tripleVolume_bitmapBlk (hg : g < 3) :
    tripleVolume.bitmapBlk r g = g + match r with
      | .block => 3
      | .inode => 6 := by
  cases r <;> interval_cases g <;> decide

theorem tripleMount_blkAddr (hn : n < 9) : tripleMount.blkAddr n = 1024 * n := by
  interval_cases n <;> rfl

theorem tripleVolume_blk {x : Nat} (hlo : 3 ≤ n) (hhi : n < 9) (hx : x < 1024) :
    tripleVolume.blk tripleMount n x = if n = 5 ∧ x = 0 then 0xDF else 255 := by
  rw [Volume.blk, tripleMount_blkAddr hhi]
  simp only [tripleVolume]
  rw [if_neg (by omega), if_neg (by omega)]
  rcases eq_or_ne (1024 * n + x) 5120 with heq | hne
  · rw [if_pos heq, if_pos (by omega)]
  · rw [if_neg hne, if_pos (by omega), if_neg (by omega)]

theorem tripleVolume_clear : tripleMount.OneClear tripleVolume .block 2 5 := by
  intro r g j hg hj
  have hg : g < 3 := hg
  have hj : j < 8192 := hj
  have hbyte : tripleVolume.blk tripleMount (tripleVolume.bitmapBlk r g) (j / 8) =
      if (r, g) = (.block, 2) ∧ j / 8 = 0 then 0xDF else 255 := by
    rw [tripleVolume_bitmapBlk hg]
    cases r with
    | block =>
      rw [tripleVolume_blk (by simp) (by simp; omega) (by omega)]
      simp
    | inode =>
      rw [tripleVolume_blk (by simp) (by simp; omega) (by omega)]
      simp
  rw [bitOf]
  split at hbyte
  · rename_i hsame
    obtain ⟨hsame, hfirst⟩ := hsame
    obtain ⟨rfl, rfl⟩ := Prod.mk.inj hsame
    rw [Mem.bit, hbyte]
    have hlt : j < 8 := by omega
    interval_cases j <;> decide
  · rename_i hne
    rw [Mem.bit_of_eq_255 hbyte]
    refine iff_of_false (by decide) fun hsame => hne ?_
    cases hsame
    exact ⟨rfl, rfl⟩

theorem tripleVolume_layout : tripleMount.Layout tripleVolume := by
  have haddr (r : Resource) {g : Nat} (hg : g < tripleMount.nbBlockGroups) :
      tripleMount.blkAddr (tripleVolume.bitmapBlk r g) = 1024 * (g + match r with
        | .block => 3
        | .inode => 6) := by
    have hg : g < 3 := hg
    rw [tripleVolume_bitmapBlk hg, tripleMount_blkAddr (by cases r <;> simp <;> omega)]
  have hsuper : sectorAddr tripleMount.sbLba = 1024 := rfl
  have htable : sectorAddr tripleMount.bgdtLba +
      ataSectorSize * ceilDiv tripleMount.bgdtSize ataSectorSize = 2560 := rfl
  have hsize : tripleMount.blockSize = 1024 := rfl
  refine ⟨fun r g r' g' hg hg' hne => ?_, fun r g hg => .inr ?_, fun r g hg => .inr ?_,
    by decide⟩
  · rw [Apart, haddr r hg, haddr r' hg', hsize]
    have hg : g < 3 := hg
    have hg' : g' < 3 := hg'
    have hother : r ≠ r' ∨ g ≠ g' := by
      by_contra hsame
      push Not at hsame
      exact hne (Prod.ext hsame.1 hsame.2)
    cases r <;> cases r' <;> simp at hother ⊢ <;> omega
  · rw [haddr r hg, hsuper]
    cases r <;> simp <;> omega
  · rw [haddr r hg, htable]
    cases r <;> simp <;> omega

theorem tripleVolume_image : tripleMount.Image tripleVolume := by
  refine ⟨⟨tinyMount_fits.sized, tripleVolume_layout, fun g hg i hi hclear => ?_⟩, by decide,
    by decide, by decide, by decide, by decide, fun g hg i hi hclear => ?_,
    by decide⟩
  · cases (tripleVolume_clear _ _ _ hg hi).1 hclear
    decide
  · cases (tripleVolume_clear _ _ _ hg hi).1 hclear

theorem tripleVolume_inStep : tripleMount.InStep tripleVolume := by
  refine tripleVolume_clear.inStep (by decide) (by decide) ⟨fun x hx => ?_, fun x hx => ?_⟩
    (fun r g hg => ?_) fun r => ?_
  · show tripleVolume.disk (1024 + x) = _
    simp only [tripleVolume]
    rw [if_pos (by omega), Nat.add_sub_cancel_left]
  · have hx : x < 96 := hx
    show tripleVolume.disk (2048 + x) = _
    simp only [tripleVolume]
    rw [if_neg (by omega), if_pos (by omega), Nat.add_sub_cancel_left]
  · have hg : g < 3 := hg
    cases r <;> interval_cases g <;> decide
  · cases r <;> decide

/-- From group 2³² - 1 on the search comes by group 0 twice, and not by group 2. -/
theorem alloc_skips_group :
    tripleMount.Image tripleVolume ∧ tripleMount.InStep tripleVolume ∧ tripleMount.Reliable ∧
      ∃ w, Run tripleMount.Calls tripleVolume [⟨.block, 2 ^ 32 - 1, 0⟩] w ∧
        ¬ tripleMount.Full tripleVolume .block := by
  have hchoice : tripleMount.choice .block (2 ^ 32 - 1) tripleVolume = none := by decide
  obtain ⟨t, halloc⟩ := alloc_of_none tripleVolume_image.fits le_rfl hchoice
  refine ⟨tripleVolume_image, tripleVolume_inStep, fun _ _ => rfl, _, .single halloc, fun hfull => ?_⟩
  have hclear := (tripleVolume_clear .block 2 5 (by decide) (by decide)).2 rfl
  rw [hfull 2 (by decide) 5 (by decide)] at hclear
  cases hclear

end Mount

end Kaku
