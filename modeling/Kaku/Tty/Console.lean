-- SUMMARY: Typing, erasing and `SYS_WRITE`: when the screen shows the backbuffer after them.
import Kaku.Proc.Syscall
import Kaku.Tty.Layout

/-!
# The console

`tty/src/stdin.c`, with the echo of what is typed, and `SYS_WRITE` of `syscall/src/syscall.c`.
Every operation draws some of the cells, and the question is whether these are the ones it
has changed.
-/

namespace Kaku

/-- The terminal and the line buffer, which is missing before `stdin_init`. -/
structure Console where
  tty : Tty
  stdinBuf : Option (Nat → UInt8)
  stdinBufLen : Nat

namespace Console

def stdinPut (c : UInt8) (k : Console) : K Console :=
  match k.stdinBuf with
  | none => .ok k
  | some buf =>
    if stdinBufMax ≤ k.stdinBufLen + 1 then .ok k
    else do
      let k := { k with
        stdinBuf := some fun i => if i = k.stdinBufLen then c else buf i
        stdinBufLen := k.stdinBufLen + 1 }
      let tty ← k.tty.putchar c
      let tty ← tty.flushCurrentLine
      pure { k with tty := tty }

def stdinPop (k : Console) : K Console :=
  match k.stdinBuf with
  | none => .ok k
  | some _ =>
    if k.stdinBufLen = 0 then .ok k
    else do
      let tty ← k.tty.backspace
      pure { k with stdinBufLen := k.stdinBufLen - 1, tty := tty }

/-- The format of `TTY_WARN`, and what `__func__` stands for. -/
def noStringFmt : List UInt8 := "[%s] <warn>: SYS_WRITE: no string given to put\n".toUTF8.toList
def syscallWriteName : List UInt8 := "__syscall_write".toUTF8.toList

/-- The string is `none` for a null pointer. -/
def syscallWrite (str : Option (List UInt8)) (k : Console) : K (UInt32 × Console) :=
  match str with
  | none => do
    let tty ← k.tty.printf noStringFmt [.str syscallWriteName]
    pure (1, { k with tty := tty })
  | some str => do
    let startY := k.tty.cursorY
    let tty ← k.tty.puts str
    let tty ← tty.flushFrom startY
    pure (0, { k with tty := tty })

/-- The operations of the console. -/
inductive Op
  | put (c : UInt8)
  | pop
  | write (str : List UInt8)

def step (op : Op) (k : Console) : K Console :=
  match op with
  | .put c => k.stdinPut c
  | .pop => k.stdinPop
  | .write str => do
    let (_, k) ← k.syscallWrite (some str)
    pure k

/-- The process model types into the same buffer. -/
theorem stdinPut_line {c : UInt8} {k k' : Console} {p : Kernel} (h : k.stdinPut c = .ok k')
    (hbuf : k.stdinBuf = some p.stdinBuf) (hlen : k.stdinBufLen = p.stdinBufLen) :
    k'.stdinBuf = some (p.stdinPut c).stdinBuf ∧ k'.stdinBufLen = (p.stdinPut c).stdinBufLen := by
  unfold stdinPut at h
  unfold Kernel.stdinPut
  simp only [hbuf, hlen] at h
  split at h
  · rename_i hfull
    cases h
    rw [if_pos hfull]
    exact ⟨hbuf, hlen⟩
  · rename_i hroom
    obtain ⟨tty, -, h⟩ := bind_eq_ok.1 h
    obtain ⟨tty', -, h⟩ := bind_eq_ok.1 h
    cases h
    rw [if_neg hroom]
    exact ⟨rfl, rfl⟩

theorem stdinPop_line {k k' : Console} {p : Kernel} (h : k.stdinPop = .ok k')
    (hbuf : k.stdinBuf = some p.stdinBuf) (hlen : k.stdinBufLen = p.stdinBufLen) :
    k'.stdinBuf = some p.stdinPop.stdinBuf ∧ k'.stdinBufLen = p.stdinPop.stdinBufLen := by
  unfold stdinPop at h
  unfold Kernel.stdinPop
  simp only [hbuf, hlen] at h
  split at h
  · rename_i hzero
    cases h
    rw [if_pos hzero]
    exact ⟨hbuf, hlen⟩
  · rename_i hne
    obtain ⟨tty, -, h⟩ := bind_eq_ok.1 h
    cases h
    rw [if_neg hne]
    exact ⟨rfl, rfl⟩

end Console

namespace Tty

variable {t t' : Tty} {c : UInt8} {i j y : Nat} {s : List UInt8} {v : Vesa}

/-! ## Cells that may not be shown -/

/-- Two characters look the same. -/
def SameLook (t : Tty) (tc tc' : TtyChar) : Prop :=
  ∀ col < ttyCharWidth, ∀ row < ttyCharHeight, t.cellColor tc col row = t.cellColor tc' col row

/-- Only rows from `y` to that of the cursor may have cells that are not shown. -/
structure Pending (t : Tty) (y : Nat) : Prop extends Wf t where
  le : y ≤ t.cursorY
  shows : ∀ i < ttyBackbufferSize, t.Shows i ∨ y ≤ i / ttyCols ∧ i / ttyCols ≤ t.cursorY

/-- Behind a typed character, within the row or at the start of the next, the other cells are
shown as before. -/
theorem shows_typed_of_ne (hi : i ≠ t.cursorY * ttyCols + t.cursorX) :
    (t.typed c).Shows i ↔ t.Shows i := by
  have hcell : (t.typed c).backbuffer i = t.backbuffer i := if_neg hi
  unfold Shows
  rw [hcell]
  exact Iff.rfl

theorem shows_typed_self : (t.typed c).Shows (t.cursorY * ttyCols + t.cursorX) ↔
    t.ShowsAs (t.cursorY * ttyCols + t.cursorX) ⟨c, t.fg, t.bg⟩ := by
  have hcell : (t.typed c).backbuffer (t.cursorY * ttyCols + t.cursorX) = ⟨c, t.fg, t.bg⟩ := if_pos rfl
  unfold Shows
  rw [hcell]
  exact Iff.rfl

/-- What is shown is shown as something else that looks the same. -/
theorem showsAs_iff {tc tc' : TtyChar} (h : t.ShowsAs i tc) :
    t.ShowsAs i tc' ↔ t.SameLook tc tc' := by
  unfold ShowsAs SameLook
  refine forall₄_congr fun col hcol row hrow => ?_
  rw [h col hcol row hrow]

theorem Wf.row (h : t.Wf) : (t.cursorY * ttyCols + t.cursorX) / ttyCols = t.cursorY := by
  rw [Nat.mul_comm, Nat.mul_add_div ttyCols_pos, Nat.div_eq_of_lt h.cursorX, Nat.add_zero]

/-- As long as the screen does not scroll, `nextRow` moves the cursor only. -/
theorem nextRow_eq (h : t.cursorY + 1 < ttyRows) :
    t.nextRow = { t with cursorX := 0, cursorY := t.cursorY + 1 } := if_pos h

theorem nextRow_last (h : ¬ t.cursorY + 1 < ttyRows) : t.nextRow.cursorY = ttyRows - 1 := by
  unfold nextRow
  rw [if_neg h]
  rfl

/-- As long as the screen does not scroll, `advanced` moves the cursor only. -/
theorem advanced_eq (h : t.cursorX + 1 < ttyCols ∨ t.cursorY + 1 < ttyRows) :
    t.advanced = { t with cursorX := t.advanced.cursorX, cursorY := t.advanced.cursorY } ∧
      t.cursorY ≤ t.advanced.cursorY := by
  unfold advanced
  split
  · exact ⟨rfl, le_rfl⟩
  · rename_i hx
    rw [nextRow_eq (h.resolve_left hx)]
    exact ⟨rfl, Nat.le_succ _⟩

/-- A character that is typed without scrolling: the other cells are shown as before. -/
theorem putchar_shows (h : t.Wf) (hff : c ≠ formFeed) (hnl : c ≠ charNewline)
    (hroom : t.cursorX + 1 < ttyCols ∨ t.cursorY + 1 < ttyRows) :
    ∃ t', putchar c t = .ok t' ∧ t'.Wf ∧ t'.cursorY = (t.typed c).advanced.cursorY ∧
      t.cursorY ≤ t'.cursorY ∧ ∀ i, t'.Shows i ↔ (t.typed c).Shows i := by
  obtain ⟨v, hputchar, hkept, -⟩ := putchar_spec h hff hnl
  have hwf : (t.typed c).advanced.Wf := advanced_wf ⟨h.cursorX, h.cursorY⟩
  obtain ⟨heq, hle⟩ := advanced_eq (t := t.typed c) hroom
  refine ⟨_, hputchar, ⟨hwf.cursorX, hwf.cursorY⟩, rfl, hle, fun i => ?_⟩
  rw [hkept hroom, heq]
  exact Iff.rfl

/-- One that makes the screen scroll has all of it drawn. -/
theorem putchar_scrolls (h : t.Wf) (hff : c ≠ formFeed) (hnl : c ≠ charNewline)
    (hx : ¬ t.cursorX + 1 < ttyCols) (hy : ¬ t.cursorY + 1 < ttyRows) :
    ∃ t', putchar c t = .ok t' ∧ t'.Wf ∧ t'.cursorY = ttyRows - 1 ∧ t'.UpToDate := by
  obtain ⟨v, hputchar, -, hup⟩ := putchar_spec h hff hnl
  have hwf : (t.typed c).advanced.Wf := advanced_wf ⟨h.cursorX, h.cursorY⟩
  have hadvanced : (t.typed c).advanced = (t.typed c).nextRow := if_neg hx
  refine ⟨_, hputchar, ⟨hwf.cursorX, hwf.cursorY⟩, ?_, hup hx hy⟩
  rw [hadvanced]
  exact nextRow_last (t := t.typed c) hy

theorem Pending.of_upToDate (hwf : t'.Wf) (hle : y ≤ t'.cursorY) (hup : t'.UpToDate) :
    t'.Pending y :=
  ⟨hwf, hle, fun i hi => .inl (hup i hi)⟩

theorem Pending.putchar (h : t.Pending y) : ∃ t', putchar c t = .ok t' ∧ t'.Pending y := by
  have hcy := h.cursorY
  by_cases hff : c = formFeed
  · obtain ⟨t', hflush, hdrawn⟩ := t.flush_spec
    refine ⟨t', by rw [Tty.putchar, if_pos hff, hflush], ?_⟩
    have hup := hdrawn.upToDate
    rw [hdrawn.same] at hup ⊢
    exact ⟨⟨h.cursorX, h.cursorY⟩, h.le, fun i hi => .inl (hup i hi)⟩
  by_cases hnl : c = charNewline
  · obtain ⟨v, hnewline, hkept, hup⟩ := newline_spec h.toWf
    refine ⟨_, by rw [Tty.putchar, if_neg hff, if_pos hnl, hnewline], ?_⟩
    have hwf := t.nextRow_wf
    by_cases hroom : t.cursorY + 1 < ttyRows
    · have hshows := hkept hroom
      rw [nextRow_eq hroom] at hwf hshows ⊢
      refine ⟨⟨hwf.cursorX, hwf.cursorY⟩, Nat.le_succ_of_le h.le, fun i hi => ?_⟩
      rcases h.shows i hi with hi' | hi'
      · exact .inl ((hshows i hi).2 (.inr hi'))
      · exact .inr ⟨hi'.1, Nat.le_succ_of_le hi'.2⟩
    · refine ⟨⟨hwf.cursorX, hwf.cursorY⟩, ?_, fun i hi => .inl (hup hroom i hi)⟩
      have hlast := nextRow_last hroom
      have hle := h.le
      simp only
      omega
  by_cases hroom : t.cursorX + 1 < ttyCols ∨ t.cursorY + 1 < ttyRows
  · obtain ⟨t', hputchar, hwf, -, hle, hshows⟩ := putchar_shows h.toWf hff hnl hroom
    refine ⟨t', hputchar, ⟨hwf, h.le.trans hle, fun i hi => ?_⟩⟩
    rw [hshows i]
    by_cases hself : i = t.cursorY * ttyCols + t.cursorX
    · rw [hself, h.row]
      exact .inr ⟨h.le, hle⟩
    · rw [shows_typed_of_ne hself]
      rcases h.shows i hi with hi' | hi'
      · exact .inl hi'
      · exact .inr ⟨hi'.1, hi'.2.trans hle⟩
  · rw [not_or] at hroom
    obtain ⟨t', hputchar, hwf, hlast, hup⟩ := putchar_scrolls h.toWf hff hnl hroom.1 hroom.2
    have hle := h.le
    exact ⟨t', hputchar, .of_upToDate hwf (by omega) hup⟩

theorem Pending.puts (h : t.Pending y) : ∃ t', puts s t = .ok t' ∧ t'.Pending y := by
  induction s generalizing t with
  | nil => exact ⟨t, rfl, h⟩
  | cons c s ih =>
    obtain ⟨t₁, hputchar, h₁⟩ := h.putchar (c := c)
    obtain ⟨t', hputs, h'⟩ := ih h₁
    refine ⟨t', ?_, h'⟩
    unfold Tty.puts putChars
    rw [hputchar]
    exact hputs

/-- Drawing the rows that are pending brings the screen up to date. -/
theorem Pending.flushFrom (h : t.Pending y) :
    ∃ t', flushFrom y t = .ok t' ∧ t'.Wf ∧ t'.UpToDate := by
  have hle := h.le
  have hcy := h.cursorY
  obtain ⟨t', hflush, hdrawn⟩ := @flushLines_spec t (t.cursorY + 1 - y) y (by omega)
  refine ⟨t', hflush, ?_, fun i hi => ?_⟩
  · rw [hdrawn.same]
    exact ⟨h.cursorX, h.cursorY⟩
  · rw [hdrawn.shows i hi]
    rcases h.shows i hi with hi' | hi'
    · exact .inr hi'
    · exact .inl (by omega)

theorem flushCurrentLine_spec (h : t.Wf) : ∃ t', flushCurrentLine t = .ok t' ∧ t'.Wf ∧
    ∀ i < ttyBackbufferSize, t'.Shows i ↔ i / ttyCols = t.cursorY ∨ t.Shows i := by
  obtain ⟨t', hflush, hdrawn⟩ := flushLine_spec (t := t) h.cursorY
  refine ⟨t', hflush, ?_, hdrawn.shows⟩
  rw [hdrawn.same]
  exact ⟨h.cursorX, h.cursorY⟩

/-! ## Typing and erasing -/

/-- A character that ends a row, but not the last one, is not in the row that is drawn, and looks
like what is there already. -/
def Echoes (t : Tty) (c : UInt8) : Prop :=
  c = formFeed ∨ c = charNewline ∨ t.cursorX + 1 < ttyCols ∨ ¬ t.cursorY + 1 < ttyRows ∨
    t.SameLook (t.backbuffer (t.cursorY * ttyCols + t.cursorX)) ⟨c, t.fg, t.bg⟩

theorem UpToDate.flushCurrentLine (hup : t.UpToDate) (h : t.Wf) :
    ∃ t', flushCurrentLine t = .ok t' ∧ t'.Wf ∧ t'.UpToDate := by
  obtain ⟨t', hflush, hwf, hshows⟩ := flushCurrentLine_spec h
  exact ⟨t', hflush, hwf, fun i hi => (hshows i hi).2 (.inr (hup i hi))⟩

theorem UpToDate.newline (hup : t.UpToDate) (h : t.Wf) :
    ∃ t', newline t = .ok t' ∧ t'.Wf ∧ t'.UpToDate := by
  obtain ⟨v, hnewline, hkept, hscrolled⟩ := newline_spec h
  have hwf := t.nextRow_wf
  refine ⟨_, hnewline, ⟨hwf.cursorX, hwf.cursorY⟩, ?_⟩
  by_cases hroom : t.cursorY + 1 < ttyRows
  · exact fun i hi => (hkept hroom i hi).2 (.inr (hup i hi))
  · exact hscrolled hroom

/-- Typing a character, and drawing the row in which the cursor is then. -/
theorem echo_iff (h : t.Wf) (hup : t.UpToDate) : ∃ t₁ t', putchar c t = .ok t₁ ∧
    flushCurrentLine t₁ = .ok t' ∧ t'.Wf ∧ (t'.UpToDate ↔ t.Echoes c) := by
  unfold Echoes
  by_cases hff : c = formFeed
  · obtain ⟨t₁, hflush, hdrawn⟩ := t.flush_spec
    have hwf : t₁.Wf := by
      rw [hdrawn.same]
      exact ⟨h.cursorX, h.cursorY⟩
    obtain ⟨t', hline, hwf', hup'⟩ := hdrawn.upToDate.flushCurrentLine hwf
    exact ⟨t₁, t', by rw [putchar, if_pos hff, hflush], hline, hwf', iff_of_true hup' (.inl hff)⟩
  by_cases hnl : c = charNewline
  · obtain ⟨t₁, hnewline, hwf, hup₁⟩ := hup.newline h
    obtain ⟨t', hline, hwf', hup'⟩ := hup₁.flushCurrentLine hwf
    exact ⟨t₁, t', by rw [putchar, if_neg hff, if_pos hnl, hnewline], hline, hwf',
      iff_of_true hup' (.inr (.inl hnl))⟩
  by_cases hroom : t.cursorX + 1 < ttyCols ∨ t.cursorY + 1 < ttyRows
  · obtain ⟨t₁, hputchar, hwf, hcursor, -, hshows⟩ := putchar_shows h hff hnl hroom
    obtain ⟨t', hline, hwf', hshows'⟩ := flushCurrentLine_spec hwf
    refine ⟨t₁, t', hputchar, hline, hwf', ?_⟩
    have hself : t'.Shows (t.cursorY * ttyCols + t.cursorX) ↔ t.cursorY = t₁.cursorY ∨
        t.SameLook (t.backbuffer (t.cursorY * ttyCols + t.cursorX)) ⟨c, t.fg, t.bg⟩ := by
      rw [hshows' _ h.index, hshows, shows_typed_self, showsAs_iff (hup _ h.index), h.row]
    have hiff : t'.UpToDate ↔ t'.Shows (t.cursorY * ttyCols + t.cursorX) := by
      refine ⟨fun hall => hall _ h.index, fun hcell i hi => ?_⟩
      by_cases hi' : i = t.cursorY * ttyCols + t.cursorX
      · rwa [hi']
      · rw [hshows' i hi, hshows, shows_typed_of_ne hi']
        exact .inr (hup i hi)
    rw [hiff, hself, hcursor]
    by_cases hx : t.cursorX + 1 < ttyCols
    · have hstays : (t.typed c).advanced = { t.typed c with cursorX := t.cursorX + 1 } := if_pos hx
      exact iff_of_true (.inl (congrArg Tty.cursorY hstays).symm) (.inr (.inr (.inl hx)))
    · have hy := hroom.resolve_left hx
      have hnext : (t.typed c).advanced = (t.typed c).nextRow := if_neg hx
      have hmoves : (t.typed c).advanced.cursorY = t.cursorY + 1 := by
        rw [hnext, nextRow_eq (t := t.typed c) hy]
        rfl
      have hne : ¬ t.cursorY = t.cursorY + 1 := by omega
      rw [hmoves, or_iff_right hne, or_iff_right hff, or_iff_right hnl, or_iff_right hx,
        or_iff_right (not_not_intro hy)]
  · rw [not_or] at hroom
    obtain ⟨t₁, hputchar, hwf, -, hup₁⟩ := putchar_scrolls h hff hnl hroom.1 hroom.2
    obtain ⟨t', hline, hwf', hup'⟩ := hup₁.flushCurrentLine hwf
    exact ⟨t₁, t', hputchar, hline, hwf', iff_of_true hup' (.inr (.inr (.inr (.inl hroom.2))))⟩

/-- The cell is emptied and drawn. -/
def emptied (t : Tty) : Tty :=
  { t with backbuffer := fun j =>
      if j = t.cursorY * ttyCols + t.cursorX then
        { t.backbuffer (t.cursorY * ttyCols + t.cursorX) with c := 0 }
      else t.backbuffer j }

theorem blankCell_spec (h : t.Wf) : ∃ v, blankCell t = .ok { t.emptied with vesa := v } ∧
    ∀ i < ttyBackbufferSize, Shows { t.emptied with vesa := v } i ↔
      i = t.cursorY * ttyCols + t.cursorX ∨ t.Shows i := by
  obtain ⟨t', hflush, hdrawn⟩ := flushCell_spec (t := t.emptied) h.index
  refine ⟨t'.vesa, ?_, fun i hi => ?_⟩
  · simp only [blankCell, cell, setCell, if_pos h.index, ok_bind]
    exact hflush.trans (congrArg Except.ok hdrawn.same)
  · have hshows := hdrawn.shows i hi
    rw [hdrawn.same] at hshows
    rw [hshows]
    by_cases hself : i = t.cursorY * ttyCols + t.cursorX
    · exact iff_of_true (.inl hself) (.inl hself)
    · rw [or_iff_right hself, or_iff_right hself]
      have hcell : t.emptied.backbuffer i = t.backbuffer i := if_neg hself
      unfold Shows
      rw [hcell]
      exact Iff.rfl

/-- The cursor on the cell in front of it. -/
def retreated (t : Tty) : Tty :=
  if t.cursorX = 0 then { t with cursorX := ttyCols - 1, cursorY := t.cursorY - 1 }
  else { t with cursorX := t.cursorX - 1 }

theorem retreated_wf (h : t.Wf) : t.retreated.Wf := by
  have hx := h.cursorX
  have hy := h.cursorY
  unfold retreated
  split
  · exact ⟨show ttyCols - 1 < ttyCols by decide, Nat.lt_of_le_of_lt (Nat.sub_le _ _) hy⟩
  · exact ⟨Nat.lt_of_le_of_lt (Nat.sub_le _ _) hx, hy⟩

/-- Except at the start of the screen `tty_backspace` empties the cell in front of the cursor. -/
theorem backspace_eq (h : t.cursorX ≠ 0 ∨ t.cursorY ≠ 0) : backspace t = blankCell t.retreated := by
  unfold backspace retreated
  split
  · rename_i hx
    rw [if_neg (h.resolve_left (not_not_intro hx))]
  · rfl

theorem UpToDate.backspace (hup : t.UpToDate) (h : t.Wf) :
    ∃ t', backspace t = .ok t' ∧ t'.Wf ∧ t'.UpToDate := by
  by_cases hstart : t.cursorX = 0 ∧ t.cursorY = 0
  · exact ⟨t, by rw [Tty.backspace, if_pos hstart.1, if_pos hstart.2], h, hup⟩
  · have hwf := retreated_wf h
    obtain ⟨v, hblank, hshows⟩ := blankCell_spec hwf
    refine ⟨_, (backspace_eq (not_and_or.1 hstart)).trans hblank, ⟨hwf.cursorX, hwf.cursorY⟩,
      fun i hi => (hshows i hi).2 (.inr ?_)⟩
    have hsame : t.retreated.Shows i ↔ t.Shows i := by
      unfold retreated
      split <;> exact Iff.rfl
    exact hsame.2 (hup i hi)

end Tty

namespace Console

variable {k : Console} {op : Op}

/-- The condition of every operation: what is typed is drawn. -/
def Draws (k : Console) : Op → Prop
  | .put c => k.stdinBuf = none ∨ stdinBufMax ≤ k.stdinBufLen + 1 ∨ k.tty.Echoes c
  | .pop => True
  | .write _ => True

/-- On a screen that is up to date every operation returns, and the screen is up to date again
unless a character that is accepted at the end of a row other than the last one looks different
from what was in its cell. -/
theorem up_to_date_iff (hwf : k.tty.Wf) (hup : k.tty.UpToDate) :
    ∃ k', k.step op = .ok k' ∧ k'.tty.Wf ∧ (k'.tty.UpToDate ↔ k.Draws op) := by
  cases op with
  | put c =>
    simp only [step, stdinPut, Draws]
    cases hbuf : k.stdinBuf with
    | none => exact ⟨k, rfl, hwf, iff_of_true hup (.inl rfl)⟩
    | some buf =>
      simp only [reduceCtorEq, false_or]
      by_cases hfull : stdinBufMax ≤ k.stdinBufLen + 1
      · exact ⟨k, by rw [if_pos hfull], hwf, iff_of_true hup (.inl hfull)⟩
      · obtain ⟨t₁, t', hputchar, hflush, hwf', hiff⟩ := Tty.echo_iff (c := c) hwf hup
        refine ⟨_, by rw [if_neg hfull, hputchar, ok_bind, hflush, ok_bind]; rfl, hwf', ?_⟩
        rw [or_iff_right hfull]
        exact hiff
  | pop =>
    simp only [step, stdinPop, Draws, iff_true]
    cases hbuf : k.stdinBuf with
    | none => exact ⟨k, rfl, hwf, hup⟩
    | some buf =>
      by_cases hzero : k.stdinBufLen = 0
      · exact ⟨k, by simp only [if_pos hzero], hwf, hup⟩
      · obtain ⟨t', hbackspace, hwf', hup'⟩ := hup.backspace hwf
        refine ⟨_, by simp only [if_neg hzero, hbackspace, ok_bind]; rfl, hwf', hup'⟩
  | write str =>
    simp only [step, syscallWrite, Draws, iff_true]
    obtain ⟨t₁, hputs, hpending⟩ := (Tty.Pending.of_upToDate hwf le_rfl hup).puts (s := str)
    obtain ⟨t', hflush, hwf', hup'⟩ := hpending.flushFrom
    exact ⟨_, by simp only [hputs, ok_bind, hflush]; rfl, hwf', hup'⟩

/-- The glyph of `A`, in the lines of `default8x16_psf` that are drawn for it. -/
def glyphA (i : Int) : UInt8 :=
  [0x10, 0x38, 0x6C, 0xC6, 0xC6, 0xFE, 0xC6, 0xC6, 0xC6, 0xC6].getD (i - 1046).toNat 0

/-- An empty black screen. -/
def blank (x y : Nat) : Console where
  tty :=
    { backbuffer := fun _ => .zero, cursorX := x, cursorY := y, fg := 0x00FFFFFF, bg := 0
      psf := glyphA, vesa := ⟨fun _ => 0, 1024, le_rfl⟩ }
  stdinBuf := some fun _ => 0
  stdinBufLen := 0

theorem blank_upToDate (x y : Nat) : (blank x y).tty.UpToDate := fun _ _ _ _ _ _ => rfl

/-- `A` in the middle of a row. -/
theorem up_to_date_middle : ∃ k, (blank 5 0).step (.put 0x41) = .ok k ∧ k.tty.UpToDate := by
  obtain ⟨k, hstep, -, hiff⟩ :=
    @up_to_date_iff (blank 5 0) (.put 0x41) ⟨by decide, by decide⟩ (blank_upToDate 5 0)
  exact ⟨k, hstep, hiff.2 (.inr (.inr (.inr (.inr (.inl (by decide))))))⟩

/-- `A` at the end of the first row is not drawn. -/
theorem last_column_stale : (blank 127 0).tty.Wf ∧ (blank 127 0).tty.UpToDate ∧
    ∃ k, (blank 127 0).step (.put 0x41) = .ok k ∧ ¬ k.tty.UpToDate := by
  have hwf : (blank 127 0).tty.Wf := ⟨by decide, by decide⟩
  refine ⟨hwf, blank_upToDate 127 0, ?_⟩
  obtain ⟨t₁, t', hputchar, hflush, -, hiff⟩ := Tty.echo_iff (c := 0x41) hwf (blank_upToDate 127 0)
  refine ⟨⟨t', some fun i => if i = 0 then 0x41 else 0, 1⟩, ?_, ?_⟩
  · change (do
      let tty ← (blank 127 0).tty.putchar 0x41
      let tty ← tty.flushCurrentLine
      pure (⟨tty, some fun i => if i = 0 then 0x41 else 0, 1⟩ : Console)) = _
    rw [hputchar, ok_bind, hflush]
    rfl
  · rw [hiff]
    rintro (h | h | h | h | h)
    · exact absurd h (by decide)
    · exact absurd h (by decide)
    · exact absurd h (by decide)
    · exact h (by decide)
    · -- the top of the glyph
      exact absurd (h 3 (by decide) 0 (by decide)) (by decide)

end Console

end Kaku
