-- SUMMARY: The line that is edited: what is in the buffer of stdin is what the screen has in front of the cursor.
import Kaku.Lib.Run
import Kaku.Tty.Console

/-!
# Editing a line

The buffer and the screen are edited separately, and each has its own limits: the buffer takes 511
characters, and `tty_backspace` does nothing at the start of the screen. Of all lines that fit into
the buffer the screen has every cell, also after it has scrolled.
-/

namespace Kaku

/-- No key produces a form feed. -/
theorem kbMap_ne_formFeed (scancode : UInt8) : kbMap scancode ≠ Tty.formFeed := by
  have htable : kbMapTable.all (fun c => c.toNat.toUInt8 != Tty.formFeed) = true := by decide
  unfold kbMap
  rw [List.getD_eq_getElem?_getD]
  cases hget : kbMapTable[scancode.toNat]? with
  | none => decide
  | some c => exact bne_iff_ne.1 (List.all_eq_true.1 htable c (List.mem_of_getElem? hget))

namespace Tty

/-- The cell of the cursor. -/
def cursor (t : Tty) : Nat := t.cursorY * ttyCols + t.cursorX

variable {t : Tty} {c : UInt8} {j : Nat}

theorem Wf.cursor_lt (h : t.Wf) : t.cursor < ttyBackbufferSize := h.index

/-- The cursor goes to the next cell, after the screen has moved up by `n` rows. -/
theorem advanced_moves (h : t.Wf) : ∃ n, t.advanced.cursor + n * ttyCols = t.cursor + 1 ∧
    (n = 0 ∨ t.advanced.cursor = (ttyRows - 1) * ttyCols) ∧
    ∀ j, j + n * ttyCols < ttyBackbufferSize →
      t.advanced.backbuffer j = t.backbuffer (j + n * ttyCols) := by
  have hx := h.cursorX
  have hy := h.cursorY
  unfold advanced
  by_cases hcol : t.cursorX + 1 < ttyCols
  · rw [if_pos hcol]
    refine ⟨0, ?_, .inl rfl, fun j _ => ?_⟩
    · simp only [cursor]
      omega
    · simp only [Nat.zero_mul, Nat.add_zero]
  · rw [if_neg hcol]
    by_cases hrow : t.cursorY + 1 < ttyRows
    · rw [nextRow_eq hrow]
      refine ⟨0, ?_, .inl rfl, fun j _ => ?_⟩
      · simp only [cursor, show ttyCols = 128 from rfl] at *
        omega
      · simp only [Nat.zero_mul, Nat.add_zero]
    · have hnext : t.nextRow = { t.scrolled with cursorX := 0 } := if_neg hrow
      rw [hnext]
      refine ⟨1, ?_, .inr rfl, fun j hj => ?_⟩
      · simp only [cursor, scrolled, show ttyCols = 128 from rfl, show ttyRows = 48 from rfl] at *
        omega
      · have hkept : j < ttyBackbufferSize - ttyCols := by omega
        simp only [scrolled, if_pos hkept, Nat.one_mul]

/-- The cursor goes back to the cell in front of it. -/
theorem retreated_cursor (h : t.Wf) (hpos : 0 < t.cursor) : t.retreated.cursor + 1 = t.cursor := by
  have hx := h.cursorX
  unfold retreated
  split <;> simp only [cursor, show ttyCols = 128 from rfl] at * <;> omega

theorem retreated_backbuffer : t.retreated.backbuffer = t.backbuffer := by
  unfold retreated
  split <;> rfl

theorem emptied_of_ne (h : j ≠ t.cursor) : t.emptied.backbuffer j = t.backbuffer j := if_neg h

theorem typed_of_ne (h : j ≠ t.cursor) : (t.typed c).backbuffer j = t.backbuffer j := if_neg h

theorem typed_self : ((t.typed c).backbuffer t.cursor).c = c := congrArg TtyChar.c (if_pos rfl)

/-- `tty_backspace` behind a character, as the backbuffer has it. -/
theorem backspace_spec (h : t.Wf) (hpos : 0 < t.cursor) : ∃ t', backspace t = .ok t' ∧ t'.Wf ∧
    t'.cursor + 1 = t.cursor ∧ ∀ j, j ≠ t'.cursor → t'.backbuffer j = t.backbuffer j := by
  have hstart : t.cursorX ≠ 0 ∨ t.cursorY ≠ 0 := by
    unfold cursor at hpos
    by_contra hzero
    rw [not_or, not_not, not_not] at hzero
    rw [hzero.1, hzero.2, Nat.zero_mul] at hpos
    exact absurd hpos (Nat.lt_irrefl 0)
  have hwf := retreated_wf h
  obtain ⟨v, hblank, -⟩ := blankCell_spec hwf
  refine ⟨_, (backspace_eq hstart).trans hblank, ⟨hwf.cursorX, hwf.cursorY⟩,
    retreated_cursor h hpos, fun j hj => ?_⟩
  have hcell : t.retreated.emptied.backbuffer j = t.retreated.backbuffer j := emptied_of_ne hj
  rw [retreated_backbuffer] at hcell
  exact hcell

/-- `tty_putchar` of a character that is shown, and the drawing of its row. -/
theorem putchar_flush_spec (h : t.Wf) (hff : c ≠ formFeed) (hnl : c ≠ charNewline) :
    ∃ t₁ v, putchar c t = .ok t₁ ∧
      flushCurrentLine t₁ = .ok { (t.typed c).advanced with vesa := v } := by
  obtain ⟨v, hputchar, -⟩ := putchar_spec h hff hnl
  have hwf : (t.typed c).advanced.Wf := advanced_wf ⟨h.cursorX, h.cursorY⟩
  obtain ⟨t', hflush, hdrawn⟩ :=
    @flushLine_spec { (t.typed c).advanced with vesa := v } (t.typed c).advanced.cursorY hwf.cursorY
  exact ⟨_, t'.vesa, hputchar, hflush.trans (congrArg Except.ok hdrawn.same)⟩

end Tty

namespace Console

/-- What the keyboard does while a line is edited: it puts the characters of its map, and Backspace
and Enter are not among them. -/
def Edits (_ : Console) : Op → Prop
  | .put c => (∃ scancode, kbMap scancode = c) ∧ c ≠ charNewline ∧ c ≠ 0x08
  | .pop => True
  | .write _ => False

/-- The line in the buffer stands in front of the cursor, and what is in front of the line is what
was there when it was empty, `n` rows further down. -/
structure Editing (k₀ k : Console) (n : Nat) : Prop where
  wf : k.tty.Wf
  fits : k.stdinBufLen ≤ k.tty.cursor
  moved : k.tty.cursor + n * ttyCols = k₀.tty.cursor + k.stdinBufLen
  line : ∀ buf, k.stdinBuf = some buf → ∀ i < k.stdinBufLen,
    (k.tty.backbuffer (k.tty.cursor - k.stdinBufLen + i)).c = buf i
  before : ∀ j, j + k.stdinBufLen < k.tty.cursor →
    k.tty.backbuffer j = k₀.tty.backbuffer (j + n * ttyCols)

variable {k₀ k k' : Console} {n : Nat} {c : UInt8} {op : Op} {es : List Op}

/-- An empty line. -/
theorem Editing.start (hwf : k.tty.Wf) (hempty : k.stdinBufLen = 0) : Editing k k 0 := by
  refine ⟨hwf, ?_, ?_, fun buf _ i hi => ?_, fun j _ => ?_⟩
  · rw [hempty]
    exact Nat.zero_le _
  · rw [hempty, Nat.zero_mul]
  · rw [hempty] at hi
    exact absurd hi (Nat.not_lt_zero i)
  · rw [Nat.zero_mul, Nat.add_zero]

/-- A character at the end of the line. -/
theorem Editing.put (h : Editing k₀ k n) (hff : c ≠ Tty.formFeed) (hnl : c ≠ charNewline) :
    ∃ k' m, k.stdinPut c = .ok k' ∧ Editing k₀ k' m := by
  unfold stdinPut
  cases hbuf : k.stdinBuf with
  | none => exact ⟨k, n, rfl, h⟩
  | some buf =>
    by_cases hfull : stdinBufMax ≤ k.stdinBufLen + 1
    · exact ⟨k, n, if_pos hfull, h⟩
    obtain ⟨t₁, v, hputchar, hflush⟩ := Tty.putchar_flush_spec h.wf hff hnl
    obtain ⟨m, hcursor, hscroll, hcells⟩ := Tty.advanced_moves (t := k.tty.typed c)
      ⟨h.wf.cursorX, h.wf.cursorY⟩
    have hwf : (k.tty.typed c).advanced.Wf := Tty.advanced_wf ⟨h.wf.cursorX, h.wf.cursorY⟩
    have htyped : (k.tty.typed c).cursor = k.tty.cursor := rfl
    have hlt := h.wf.cursor_lt
    have hfits := h.fits
    have hmoved := h.moved
    rw [htyped] at hcursor
    -- Where the screen scrolls the cursor is far behind the start of the screen.
    have hfits' : k.stdinBufLen + 1 ≤ (k.tty.typed c).advanced.cursor := by
      simp only [show stdinBufMax = 512 from rfl, show ttyCols = 128 from rfl,
        show ttyRows = 48 from rfl] at *
      omega
    refine ⟨⟨{ (k.tty.typed c).advanced with vesa := v },
      some fun i => if i = k.stdinBufLen then c else buf i, k.stdinBufLen + 1⟩, n + m, ?_, ?_⟩
    · simp only [if_neg hfull, hputchar, ok_bind, hflush]
      rfl
    refine ⟨⟨hwf.cursorX, hwf.cursorY⟩, hfits', ?_, fun buf' hbuf' i hi => ?_, fun j hj => ?_⟩
    · change (k.tty.typed c).advanced.cursor + (n + m) * ttyCols = k₀.tty.cursor + (k.stdinBufLen + 1)
      rw [Nat.add_mul]
      omega
    · cases hbuf'
      change ((k.tty.typed c).advanced.backbuffer
        ((k.tty.typed c).advanced.cursor - (k.stdinBufLen + 1) + i)).c = _
      have hcell : (k.tty.typed c).advanced.cursor - (k.stdinBufLen + 1) + i + m * ttyCols =
          k.tty.cursor - k.stdinBufLen + i := by omega
      change i < k.stdinBufLen + 1 at hi
      rw [hcells _ (by omega), hcell]
      dsimp only
      by_cases hlast : i = k.stdinBufLen
      · have hself : k.tty.cursor - k.stdinBufLen + i = k.tty.cursor := by omega
        rw [if_pos hlast, hself, Tty.typed_self]
      · rw [if_neg hlast, Tty.typed_of_ne (by omega), h.line buf hbuf i (by omega)]
    · change j + (k.stdinBufLen + 1) < (k.tty.typed c).advanced.cursor at hj
      change (k.tty.typed c).advanced.backbuffer j = _
      have hrows : j + m * ttyCols + n * ttyCols = j + (n + m) * ttyCols := by
        rw [Nat.add_mul]
        omega
      rw [hcells j (by omega), Tty.typed_of_ne (by omega), h.before _ (by omega), hrows]

/-- The last character is taken from the line, and no other cell changes. -/
theorem Editing.pop (h : Editing k₀ k n) : ∃ k', k.stdinPop = .ok k' ∧ Editing k₀ k' n ∧
    ∀ j, (0 < k.stdinBufLen → j + 1 ≠ k.tty.cursor) → k'.tty.backbuffer j = k.tty.backbuffer j := by
  unfold stdinPop
  cases hbuf : k.stdinBuf with
  | none => exact ⟨k, rfl, h, fun _ _ => rfl⟩
  | some buf =>
    by_cases hzero : k.stdinBufLen = 0
    · exact ⟨k, if_pos hzero, h, fun _ _ => rfl⟩
    have hfits := h.fits
    have hmoved := h.moved
    obtain ⟨t', hbackspace, hwf, hcursor, hcells⟩ := Tty.backspace_spec h.wf (by omega)
    refine ⟨⟨t', some buf, k.stdinBufLen - 1⟩, ?_, ⟨hwf, ?_, ?_, fun buf' hbuf' i hi => ?_,
      fun j hj => ?_⟩, fun j hj => hcells j ?_⟩
    · simp only [if_neg hzero, hbackspace, ok_bind]
      rfl
    · simp only
      omega
    · simp only
      omega
    · cases hbuf'
      simp only at hi ⊢
      have hcell : t'.cursor - (k.stdinBufLen - 1) + i = k.tty.cursor - k.stdinBufLen + i := by omega
      rw [hcells _ (by omega), hcell, h.line buf hbuf i (by omega)]
    · simp only at hj ⊢
      rw [hcells _ (by omega), h.before _ (by omega)]
    · have hne := hj (Nat.pos_of_ne_zero hzero)
      omega

theorem Editing.step (h : Editing k₀ k n) (hedits : Edits k op) :
    ∃ k' m, k.step op = .ok k' ∧ Editing k₀ k' m := by
  cases op with
  | put c =>
    obtain ⟨⟨scancode, hmap⟩, hnl, -⟩ := hedits
    exact h.put (hmap ▸ kbMap_ne_formFeed scancode) hnl
  | pop =>
    obtain ⟨k', hpop, h', -⟩ := h.pop
    exact ⟨k', n, hpop, h'⟩
  | write str => exact hedits.elim

theorem Editing.run (hrun : Run (Guarded Edits fun k op => k.step op) k₀ es k) (hwf : k₀.tty.Wf)
    (hempty : k₀.stdinBufLen = 0) : ∃ n, Editing k₀ k n := by
  refine hrun.invariant (I := fun k => ∃ n, Editing k₀ k n) ?_ ⟨0, .start hwf hempty⟩
  rintro k op k' ⟨hedits, hstep⟩ ⟨n, h⟩
  obtain ⟨k₁, m, hstep', h'⟩ := h.step hedits
  have hsame : k' = k₁ := Except.ok.inj (hstep.symm.trans hstep')
  exact ⟨m, hsame ▸ h'⟩

/-- While a line is edited from an empty one, at any place of the screen, every key returns. The
cells in front of the cursor are those of the line, the cells in front of these are what they were,
`n` rows further down, and a Backspace changes no cell but that of the last character of the
line. -/
theorem echo_agrees (hwf : k₀.tty.Wf) (hempty : k₀.stdinBufLen = 0)
    (hrun : Run (Guarded Edits fun k op => k.step op) k₀ es k) :
    k.stdinBufLen ≤ k.tty.cursor ∧
    (∀ buf, k.stdinBuf = some buf → ∀ i < k.stdinBufLen,
      (k.tty.backbuffer (k.tty.cursor - k.stdinBufLen + i)).c = buf i) ∧
    (∃ n, k.tty.cursor + n * ttyCols = k₀.tty.cursor + k.stdinBufLen ∧
      ∀ j, j + n * ttyCols < k₀.tty.cursor →
        k.tty.backbuffer j = k₀.tty.backbuffer (j + n * ttyCols)) ∧
    (∀ op, Edits k op → ∃ k', k.step op = .ok k') ∧
    ∀ k', k.step .pop = .ok k' →
      ∀ j, (0 < k.stdinBufLen → j + 1 ≠ k.tty.cursor) →
        k'.tty.backbuffer j = k.tty.backbuffer j := by
  obtain ⟨n, h⟩ := Editing.run hrun hwf hempty
  have hmoved := h.moved
  refine ⟨h.fits, h.line, ⟨n, hmoved, fun j hj => h.before j (by omega)⟩, fun op hedits => ?_,
    fun k' hstep => ?_⟩
  · obtain ⟨k', -, hstep, -⟩ := h.step hedits
    exact ⟨k', hstep⟩
  · obtain ⟨k₁, hpop, -, hcells⟩ := h.pop
    rw [show k.step .pop = k.stdinPop from rfl, hpop, Except.ok.injEq] at hstep
    exact hstep ▸ hcells

/-- `q` at the end of the first row, and a Backspace behind it. -/
theorem echo_agrees_wrap : ∃ k₁ k₂, (blank 127 0).step (.put 0x71) = .ok k₁ ∧
    k₁.step .pop = .ok k₂ ∧ (k₁.tty.cursor, k₁.stdinBufLen) = (128, 1) ∧
    (k₁.tty.backbuffer 127).c = 0x71 ∧ k₂.tty.backbuffer 126 = k₁.tty.backbuffer 126 := by
  have hwf : (blank 127 0).tty.Wf := ⟨by decide, by decide⟩
  have hkey : Edits (blank 127 0) (.put 0x71) := ⟨⟨0x10, by decide⟩, by decide, by decide⟩
  obtain ⟨t₁, v, hputchar, hflush⟩ :=
    Tty.putchar_flush_spec (c := 0x71) hwf (by decide) (by decide)
  have hput : (blank 127 0).step (.put 0x71) =
      .ok ⟨{ ((blank 127 0).tty.typed 0x71).advanced with vesa := v },
        some fun i => if i = 0 then 0x71 else 0, 1⟩ := by
    change (do
      let tty ← (blank 127 0).tty.putchar 0x71
      let tty ← tty.flushCurrentLine
      pure (⟨tty, some fun i => if i = 0 then 0x71 else 0, 1⟩ : Console)) = _
    rw [hputchar, ok_bind, hflush]
    rfl
  obtain ⟨-, hline, -, hreturns, hpop⟩ := echo_agrees hwf rfl (.single ⟨hkey, hput⟩)
  obtain ⟨k₂, hpop₂⟩ := hreturns .pop trivial
  have hne : 126 + 1 ≠ 128 := by decide
  exact ⟨_, k₂, hput, hpop₂, rfl, hline _ rfl 0 Nat.one_pos, hpop k₂ hpop₂ 126 fun _ => hne⟩

end Console

end Kaku
