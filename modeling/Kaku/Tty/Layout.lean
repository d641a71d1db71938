-- SUMMARY: What putting a character does to the backbuffer and the cursor, and the rows of text that it shows after a run.
import Kaku.Tty.Drawing

/-!
# The layout of the text

The rows of a text end behind 128 characters and at newlines. The backbuffer has the last
48 of them, and the cursor is at the end of the last one.
-/

namespace Kaku

namespace Tty

/-! ## Cells that are moved -/

section
variable {t : Tty} {n dst src i : Nat}

/-- The cells are moved towards the start, so that none is overwritten before it is read. -/
theorem copyCells_spec (hle : dst ≤ src) (h : src + n ≤ ttyBackbufferSize) :
    copyCells n dst src t = .ok { t with backbuffer := fun j =>
      if dst ≤ j ∧ j < dst + n then t.backbuffer (j - dst + src) else t.backbuffer j } := by
  induction n generalizing t dst src with
  | zero =>
    have hnone : (fun j => if dst ≤ j ∧ j < dst + 0 then t.backbuffer (j - dst + src)
        else t.backbuffer j) = t.backbuffer := by
      funext j
      rw [if_neg (by omega)]
    rw [hnone]
    rfl
  | succ n ih =>
    rw [copyCells, cell, if_pos (by omega), ok_bind, setCell, if_pos (by omega), ok_bind,
      ih (by omega) (by omega)]
    congr 2
    funext j
    dsimp only
    by_cases hj : dst + 1 ≤ j ∧ j < dst + 1 + n
    · have hsrc : j - (dst + 1) + (src + 1) = j - dst + src := by omega
      rw [if_pos hj, hsrc, if_neg (by omega), if_pos (by omega)]
    · rw [if_neg hj]
      by_cases hfirst : j = dst
      · rw [if_pos hfirst, if_pos (by omega), hfirst, Nat.sub_self, Nat.zero_add]
      · rw [if_neg hfirst, if_neg (by omega)]

theorem clearCells_spec (h : dst + n ≤ ttyBackbufferSize) :
    clearCells n dst t = .ok { t with backbuffer := fun j =>
      if dst ≤ j ∧ j < dst + n then .zero else t.backbuffer j } := by
  induction n generalizing t dst with
  | zero =>
    have hnone : (fun j => if dst ≤ j ∧ j < dst + 0 then TtyChar.zero else t.backbuffer j) =
        t.backbuffer := by
      funext j
      rw [if_neg (by omega)]
    rw [hnone]
    rfl
  | succ n ih =>
    rw [clearCells, setCell, if_pos (by omega), ok_bind, ih (by omega)]
    congr 2
    funext j
    dsimp only
    by_cases hj : dst + 1 ≤ j ∧ j < dst + 1 + n
    · rw [if_pos hj, if_pos (by omega)]
    · rw [if_neg hj]
      by_cases hfirst : j = dst
      · rw [if_pos hfirst, if_pos (by omega)]
      · rw [if_neg hfirst, if_neg (by omega)]

end

/-! ## The next row -/

/-- The cursor is within the screen. -/
structure Wf (t : Tty) : Prop where
  cursorX : t.cursorX < ttyCols
  cursorY : t.cursorY < ttyRows

/-- All rows move up by one, and the last one is empty. -/
def scrolled (t : Tty) : Tty :=
  { t with
    backbuffer := fun j =>
      if j < ttyBackbufferSize - ttyCols then t.backbuffer (j + ttyCols)
      else if j < ttyBackbufferSize then .zero else t.backbuffer j
    cursorY := ttyRows - 1 }

/-- The cursor at the start of the next row. -/
def nextRow (t : Tty) : Tty :=
  if t.cursorY + 1 < ttyRows then { t with cursorX := 0, cursorY := t.cursorY + 1 }
  else { t.scrolled with cursorX := 0 }

/-- The character in the cell of the cursor. -/
def typed (t : Tty) (c : UInt8) : Tty :=
  { t with backbuffer := fun j =>
      if j = t.cursorY * ttyCols + t.cursorX then ⟨c, t.fg, t.bg⟩ else t.backbuffer j }

/-- The cursor behind that cell. -/
def advanced (t : Tty) : Tty :=
  if t.cursorX + 1 < ttyCols then { t with cursorX := t.cursorX + 1 } else t.nextRow

variable {t t' : Tty} {c : UInt8} {i j : Nat}

theorem Wf.index (h : t.Wf) : t.cursorY * ttyCols + t.cursorX < ttyBackbufferSize := by
  have hx := h.cursorX
  have hy := h.cursorY
  simp only [ttyBackbufferSize, show ttyCols = 128 from rfl, show ttyRows = 48 from rfl] at *
  omega

theorem nextRow_wf (t : Tty) : t.nextRow.Wf := by
  unfold nextRow
  split
  · exact ⟨ttyCols_pos, by assumption⟩
  · exact ⟨ttyCols_pos, show ttyRows - 1 < ttyRows by decide⟩

theorem advanced_wf (h : t.Wf) : t.advanced.Wf := by
  unfold advanced
  split
  · exact ⟨by assumption, h.cursorY⟩
  · exact t.nextRow_wf

theorem scroll_spec (t : Tty) :
    ∃ v, scroll t = .ok { t.scrolled with vesa := v } ∧ UpToDate { t.scrolled with vesa := v } := by
  have hmove := @copyCells_spec t (ttyBackbufferSize - ttyCols) 0 ttyCols (Nat.zero_le _) (by decide)
  have hclear (t : Tty) := @clearCells_spec t ttyCols ((ttyRows - 1) * ttyCols) (by decide)
  unfold scroll
  rw [hmove, ok_bind, hclear, ok_bind]
  obtain ⟨t', hflush, hdrawn⟩ := flush_spec t.scrolled
  have hback : (fun j => if (ttyRows - 1) * ttyCols ≤ j ∧ j < (ttyRows - 1) * ttyCols + ttyCols then
      TtyChar.zero else if 0 ≤ j ∧ j < 0 + (ttyBackbufferSize - ttyCols) then
        t.backbuffer (j - 0 + ttyCols) else t.backbuffer j) = t.scrolled.backbuffer := by
    funext j
    simp only [scrolled, ttyBackbufferSize, show ttyCols = 128 from rfl, show ttyRows = 48 from rfl]
    by_cases hlow : j < 128 * 48 - 128
    · rw [if_neg (by omega), if_pos (by omega), if_pos hlow, Nat.sub_zero]
    · by_cases hlast : j < 128 * 48
      · rw [if_pos (by omega), if_neg hlow, if_pos hlast]
      · rw [if_neg (by omega), if_neg (by omega), if_neg hlow, if_neg hlast]
  refine ⟨t'.vesa, ?_, ?_⟩
  · simp only [hback]
    exact hflush.trans (congrArg Except.ok hdrawn.same)
  · have hup := hdrawn.upToDate
    rw [hdrawn.same] at hup
    exact hup

/-- The end of a row: the screen scrolls, and is drawn, if there is no next one. -/
theorem scrollAtEnd_spec (t : Tty) :
    ∃ v, scrollAtEnd { t with cursorX := 0, cursorY := t.cursorY + 1 } =
        .ok { t.nextRow with vesa := v } ∧ (t.cursorY + 1 < ttyRows → v = t.vesa) ∧
      (¬ t.cursorY + 1 < ttyRows → UpToDate { t.nextRow with vesa := v }) := by
  unfold scrollAtEnd nextRow
  by_cases hroom : t.cursorY + 1 < ttyRows
  · refine ⟨t.vesa, ?_, fun _ => rfl, fun hno => absurd hroom hno⟩
    simp only [if_neg (Nat.not_le_of_lt hroom), if_pos hroom]
  · obtain ⟨v, hscroll, hup⟩ := scroll_spec { t with cursorX := 0, cursorY := t.cursorY + 1 }
    refine ⟨v, ?_, fun hlt => absurd hlt hroom, fun _ => ?_⟩
    · simp only [if_pos (Nat.le_of_not_lt hroom), if_neg hroom]
      exact hscroll
    · rw [if_neg hroom]
      exact hup

theorem newline_spec (h : t.Wf) :
    ∃ v, newline t = .ok { t.nextRow with vesa := v } ∧
      (t.cursorY + 1 < ttyRows → ∀ i < ttyBackbufferSize,
        Shows { t.nextRow with vesa := v } i ↔ i / ttyCols = t.cursorY ∨ t.Shows i) ∧
      (¬ t.cursorY + 1 < ttyRows → UpToDate { t.nextRow with vesa := v }) := by
  obtain ⟨t₁, hflush, hdrawn⟩ := @flushLine_spec { t with cursorX := 0 } t.cursorY h.cursorY
  obtain ⟨v, hscroll, hsame, hup⟩ := scrollAtEnd_spec { t with vesa := t₁.vesa }
  have hnext : { ({ t with vesa := t₁.vesa } : Tty).nextRow with vesa := v } =
      { t.nextRow with vesa := v } := by
    unfold nextRow
    simp only
    split <;> rfl
  rw [hnext] at hscroll hup
  refine ⟨v, ?_, fun hroom i hi => ?_, hup⟩
  · unfold newline
    rw [hflush, ok_bind, hdrawn.same]
    exact hscroll
  · have hshows := hdrawn.shows i hi
    rw [hdrawn.same] at hshows
    rw [hsame hroom]
    unfold nextRow
    rw [if_pos hroom]
    exact hshows

theorem putchar_spec (h : t.Wf) (hff : c ≠ formFeed) (hnl : c ≠ charNewline) :
    ∃ v, putchar c t = .ok { (t.typed c).advanced with vesa := v } ∧
      (t.cursorX + 1 < ttyCols ∨ t.cursorY + 1 < ttyRows → v = t.vesa) ∧
      (¬ t.cursorX + 1 < ttyCols → ¬ t.cursorY + 1 < ttyRows →
        UpToDate { (t.typed c).advanced with vesa := v }) := by
  unfold putchar
  rw [if_neg hff, if_neg hnl, setCell, if_pos h.index, ok_bind]
  by_cases hx : t.cursorX + 1 < ttyCols
  · refine ⟨t.vesa, ?_, fun _ => rfl, fun hno => absurd hx hno⟩
    simp only [if_neg (Nat.not_le_of_lt hx)]
    unfold advanced typed
    rw [if_pos hx]
    rfl
  · obtain ⟨v, hscroll, hsame, hup⟩ := scrollAtEnd_spec (t.typed c)
    have hadvanced : (t.typed c).advanced = (t.typed c).nextRow := if_neg hx
    rw [hadvanced]
    refine ⟨v, ?_, fun hroom => hsame (hroom.resolve_left hx), fun _ hy => hup hy⟩
    simp only [if_pos (Nat.le_of_not_lt hx)]
    exact hscroll

/-! ## Rows of text -/

/-- The rows of a text, `row` being what the first one has so far. A row ends behind 128
characters and at a newline. -/
def rowsFrom : (row : List UInt8) → (s : List UInt8) → List (List UInt8)
  | row, [] => [row]
  | row, c :: s =>
    if c = charNewline then row :: rowsFrom [] s
    else if row.length + 1 = ttyCols then (row ++ [c]) :: rowsFrom [] s
    else rowsFrom (row ++ [c]) s

/-- The last 48 rows of a text. -/
def lastRows (s : List UInt8) : List (List UInt8) :=
  (rowsFrom [] s).drop ((rowsFrom [] s).length - ttyRows)

/-- The character in a column of a row, and 0 where there is none. -/
def charAt (rows : List (List UInt8)) (y x : Nat) : UInt8 := ((rows[y]?.getD [])[x]?).getD 0

/-- The backbuffer has the end of these rows, and the cursor is in the last one, `row`. -/
structure Has (t : Tty) (rows : List (List UInt8)) (row : List UInt8) : Prop where
  cursorY : t.cursorY = min rows.length (ttyRows - 1)
  cells : ∀ y < ttyRows, ∀ x < ttyCols, (t.backbuffer (y * ttyCols + x)).c =
    charAt ((rows ++ [row]).drop (rows.length - (ttyRows - 1))) y x

/-- The cursor is behind the last row. -/
structure Ends (t : Tty) (rows : List (List UInt8)) (row : List UInt8) : Prop extends
    Has t rows row where
  cursorX : t.cursorX = row.length
  short : row.length < ttyCols

variable {rows : List (List UInt8)} {row s : List UInt8} {x y k : Nat}

theorem Ends.wf (h : t.Ends rows row) : t.Wf := by
  have hy := h.cursorY
  refine ⟨h.cursorX ▸ h.short, ?_⟩
  simp only [show ttyRows = 48 from rfl] at *
  omega

/-- An empty row at the end does not show. -/
theorem charAt_append_nil : charAt (rows ++ [[]]) y x = charAt rows y x := by
  unfold charAt
  rcases Nat.lt_trichotomy y rows.length with hlt | heq | hgt
  · rw [List.getElem?_append_left hlt]
  · rw [heq, List.getElem?_concat_length, List.getElem?_eq_none le_rfl]
    rfl
  · have hnone : (rows ++ [[]])[y]? = none := List.getElem?_eq_none (by simpa using hgt)
    rw [hnone, List.getElem?_eq_none hgt.le]

theorem charAt_drop : charAt (rows.drop k) y x = charAt rows (k + y) x := by
  rw [charAt, charAt, List.getElem?_drop]

/-- The cursor goes to a new row. -/
theorem Has.nextRow (h : t.Has rows row) : t.nextRow.Ends (rows ++ [row]) [] := by
  have hy := h.cursorY
  refine ⟨⟨?_, fun y' hy' x' hx' => ?_⟩, ?_, ttyCols_pos⟩
  · unfold Tty.nextRow
    simp only [show ttyRows = 48 from rfl, List.length_append, List.length_singleton] at *
    split
    · simp only
      omega
    · simp only [scrolled, show ttyRows = 48 from rfl]
      omega
  · rw [charAt_drop, charAt_append_nil, List.length_append, List.length_singleton]
    unfold Tty.nextRow
    by_cases hroom : t.cursorY + 1 < ttyRows
    · rw [if_pos hroom, h.cells y' hy' x' hx', charAt_drop]
      congr 1
      simp only [show ttyRows = 48 from rfl] at *
      omega
    · rw [if_neg hroom]
      have hfull : ttyRows - 1 ≤ rows.length := by
        simp only [show ttyRows = 48 from rfl] at *
        omega
      simp only [scrolled]
      by_cases hlast : y' + 1 < ttyRows
      · have hindex : y' * ttyCols + x' + ttyCols = (y' + 1) * ttyCols + x' := by ring
        rw [if_pos, hindex, h.cells _ hlast x' hx', charAt_drop]
        · congr 1
          omega
        · simp only [ttyBackbufferSize, show ttyCols = 128 from rfl, show ttyRows = 48 from rfl] at *
          omega
      · -- The new row is behind all others.
        have hnone : (rows ++ [row])[rows.length + 1 - (ttyRows - 1) + y']? = none := by
          apply List.getElem?_eq_none
          rw [List.length_append, List.length_singleton]
          omega
        rw [if_neg, if_pos]
        · unfold charAt
          rw [hnone]
          rfl
        all_goals
          simp only [ttyBackbufferSize, show ttyCols = 128 from rfl, show ttyRows = 48 from rfl] at *
          omega
  · unfold Tty.nextRow
    split <;> rfl

/-- A character is put behind the last row. -/
theorem Ends.typed (h : t.Ends rows row) : (t.typed c).Has rows (row ++ [c]) := by
  refine ⟨h.cursorY, fun y hy x hx => ?_⟩
  have hcx := h.cursorX
  have hcy := h.cursorY
  have hshort := h.short
  have hold := h.cells y hy x hx
  rw [charAt_drop] at hold ⊢
  have hline : rows.length - (ttyRows - 1) + y = rows.length ↔ y = t.cursorY := by
    simp only [show ttyRows = 48 from rfl] at *
    omega
  unfold Tty.typed
  unfold charAt at hold ⊢
  dsimp only
  by_cases hhere : y = t.cursorY
  · rw [hline.2 hhere, List.getElem?_concat_length, Option.getD_some] at hold ⊢
    by_cases hcol : x = row.length
    · rw [if_pos (by rw [hhere, hcol, hcx]), hcol, List.getElem?_concat_length]
      rfl
    · rw [if_neg (by rw [hhere, hcx]; omega), hold]
      rcases Nat.lt_or_gt_of_ne hcol with hlt | hgt
      · rw [List.getElem?_append_left hlt]
      · rw [List.getElem?_eq_none hgt.le, List.getElem?_eq_none (by simpa using hgt)]
  · have hne : ¬ y * ttyCols + x = t.cursorY * ttyCols + t.cursorX := by
      simp only [show ttyCols = 128 from rfl] at *
      omega
    have hother := mt hline.1 hhere
    rw [if_neg hne, hold]
    rcases Nat.lt_or_gt_of_ne hother with hlt | hgt
    · rw [List.getElem?_append_left hlt, List.getElem?_append_left hlt]
    · have hnone (last : List UInt8) : (rows ++ [last])[rows.length - (ttyRows - 1) + y]? = none :=
        List.getElem?_eq_none (by simpa using hgt)
      rw [hnone, hnone]

/-- The row ends behind that character if it is full. -/
theorem Ends.advanced (h : t.Ends rows row) :
    if row.length + 1 = ttyCols then (t.typed c).advanced.Ends (rows ++ [row ++ [c]]) []
    else (t.typed c).advanced.Ends rows (row ++ [c]) := by
  have hcx := h.cursorX
  have hshort := h.short
  have htyped : (t.typed c).Has rows (row ++ [c]) := h.typed
  have hcursor : (t.typed c).cursorX = row.length := hcx
  unfold Tty.advanced
  rw [hcursor]
  split
  · rw [if_neg (by omega)]
    exact htyped.nextRow
  · rw [if_pos (by omega)]
    refine ⟨⟨htyped.cursorY, htyped.cells⟩, ?_, ?_⟩
    · rw [List.length_append]
      rfl
    · rw [List.length_append, List.length_singleton]
      omega

theorem Ends.setVesa {v : Vesa} (h : t.Ends rows row) : Ends { t with vesa := v } rows row :=
  ⟨⟨h.cursorY, h.cells⟩, h.cursorX, h.short⟩

/-- After a run of `tty_putchar` the text stands behind what was there. -/
theorem Ends.run (h : t.Ends rows row) (hff : formFeed ∉ s) :
    ∃ t' behind last, putChars putchar s t = .ok t' ∧ rowsFrom row s = behind ++ [last] ∧
      t'.Ends (rows ++ behind) last := by
  induction s generalizing t rows row with
  | nil => exact ⟨t, [], row, rfl, rfl, by rwa [List.append_nil]⟩
  | cons c s ih =>
    rw [List.mem_cons, not_or] at hff
    unfold putChars rowsFrom
    by_cases hnl : c = charNewline
    · obtain ⟨v, hnewline, -⟩ := newline_spec h.wf
      obtain ⟨t', behind, last, hrun, hrows, hends⟩ := ih h.nextRow.setVesa hff.2
      refine ⟨t', row :: behind, last, ?_, by rw [if_pos hnl, hrows]; rfl, ?_⟩
      · unfold putchar
        rw [if_neg (Ne.symm hff.1), if_pos hnl, hnewline]
        exact hrun
      · rwa [List.append_assoc] at hends
    · obtain ⟨v, hputchar, -⟩ := putchar_spec h.wf (Ne.symm hff.1) hnl
      have hadvanced := h.advanced (c := c)
      rw [hputchar, if_neg hnl, ok_bind]
      split at hadvanced
      · rename_i hfull
        obtain ⟨t', behind, last, hrun, hrows, hends⟩ := ih hadvanced.setVesa hff.2
        refine ⟨t', (row ++ [c]) :: behind, last, hrun, by rw [if_pos hfull, hrows]; rfl, ?_⟩
        rwa [List.append_assoc] at hends
      · rename_i hroom
        rw [if_neg hroom]
        exact ih hadvanced.setVesa hff.2

/-- `tty_init` leaves an empty screen. -/
theorem init_spec (t : Tty) : ∃ t', t.init = .ok t' ∧ t'.Ends [] [] := by
  refine ⟨_, clearCells_spec (by omega), ⟨rfl, fun y hy x hx => ?_⟩, rfl, ttyCols_pos⟩
  have hindex : y * ttyCols + x < 0 + ttyBackbufferSize := by
    simp only [ttyBackbufferSize, show ttyCols = 128 from rfl, show ttyRows = 48 from rfl] at *
    omega
  have hempty : charAt [] y x = 0 := rfl
  exact (congrArg TtyChar.c (if_pos ⟨Nat.zero_le _, hindex⟩)).trans
    (charAt_append_nil.trans hempty).symm

theorem lastRows_eq {behind : List (List UInt8)} {last : List UInt8}
    (hrows : rowsFrom [] s = behind ++ [last]) :
    lastRows s = (behind ++ [last]).drop (behind.length - (ttyRows - 1)) := by
  have hdrop : (behind ++ [last]).length - ttyRows = behind.length - (ttyRows - 1) := by
    rw [List.length_append, List.length_singleton]
    simp only [show ttyRows = 48 from rfl]
    omega
  rw [lastRows, hrows, hdrop]

/-- A screen that has the end of the rows of a text has the last 48 of them. -/
theorem Ends.shows {behind : List (List UInt8)} {last : List UInt8} (h : t.Ends behind last)
    (hrows : rowsFrom [] s = behind ++ [last]) :
    t.cursorX < ttyCols ∧ t.cursorY < ttyRows ∧ (lastRows s).length = t.cursorY + 1 ∧
      (lastRows s)[t.cursorY]?.map List.length = some t.cursorX ∧
      ∀ y < ttyRows, ∀ x < ttyCols,
        (t.backbuffer (y * ttyCols + x)).c = charAt (lastRows s) y x := by
  obtain ⟨hx, hy⟩ := h.wf
  have hcy := h.cursorY
  rw [lastRows_eq hrows]
  refine ⟨hx, hy, ?_, ?_, h.cells⟩
  · rw [List.length_drop, List.length_append, List.length_singleton, hcy]
    omega
  · have hindex : behind.length - (ttyRows - 1) + t.cursorY = behind.length := by omega
    rw [List.getElem?_drop, hindex, List.getElem?_concat_length, h.cursorX]
    rfl

/-- After `tty_init` and any characters but form feeds the cursor is on the screen, no index has
been past the end of the backbuffer, and the backbuffer has the last 48 rows of the text, the
cursor being behind the last one. -/
theorem shows_last_rows {t₀ : Tty} (hinit : t₀.init = .ok t) (hff : formFeed ∉ s) :
    ∃ t', putChars putchar s t = .ok t' ∧ t'.cursorX < ttyCols ∧ t'.cursorY < ttyRows ∧
      (lastRows s).length = t'.cursorY + 1 ∧
      (lastRows s)[t'.cursorY]?.map List.length = some t'.cursorX ∧
      ∀ y < ttyRows, ∀ x < ttyCols,
        (t'.backbuffer (y * ttyCols + x)).c = charAt (lastRows s) y x := by
  obtain ⟨t₁, hinit', hstart⟩ := t₀.init_spec
  rw [hinit, Except.ok.injEq] at hinit'
  subst hinit'
  obtain ⟨t', behind, last, hrun, hrows, hends⟩ := hstart.run hff
  rw [List.nil_append] at hends
  exact ⟨t', hrun, hends.shows hrows⟩

/-- A screen with one cell left over from before. -/
def leftover : Tty where
  backbuffer i := if i = 200 then ⟨0x7A, 0x00FFFFFF, 0⟩ else .zero
  cursorX := 5
  cursorY := 3
  fg := 0x00FFFFFF
  bg := 0
  psf _ := 0
  vesa := ⟨fun _ => 0, 1024, le_rfl⟩

/-- `a`, a newline and `b`. -/
theorem shows_last_rows_two : ∃ t t', leftover.init = .ok t ∧
    putChars putchar [0x61, charNewline, 0x62] t = .ok t' ∧ (t'.backbuffer 0).c = 0x61 ∧
      (t'.backbuffer 128).c = 0x62 ∧ (t'.backbuffer 200).c = 0 := by
  obtain ⟨t, hinit, -⟩ := leftover.init_spec
  obtain ⟨t', hrun, -, -, -, -, hcells⟩ :=
    shows_last_rows (s := [0x61, charNewline, 0x62]) hinit (by decide)
  exact ⟨t, t', hinit, hrun, hcells 0 (by decide) 0 (by decide), hcells 1 (by decide) 0 (by decide),
    hcells 1 (by decide) 72 (by decide)⟩

end Tty

end Kaku
