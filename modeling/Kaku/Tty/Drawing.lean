-- SUMMARY: What drawing does to the screen: a cell that is drawn shows, and the others are left alone.
import Kaku.Tty.Screen
import Mathlib.Tactic.Linarith

/-!
# Drawing

A cell is shown if its 8 by 16 pixels have the colours that the backbuffer gives them. The
boxes of two cells have no pixel in common.
-/

namespace Kaku

namespace Vesa

variable {v : Vesa} {x y x' y' px py n : Nat} {color : UInt32} {colors : Nat → Nat → UInt32}

/-- A pixel within the width of the display is set alone. -/
theorem pixel_setPixel (hx : x < vesaWidth) (hx' : x' < vesaWidth) :
    (v.setPixel x y color).pixel x' y' = if x' = x ∧ y' = y then color else v.pixel x' y' := by
  have hwide := v.wide
  have hpos : 0 < v.pitch := by omega
  have hiff : y' * v.pitch + x' = y * v.pitch + x ↔ x' = x ∧ y' = y := by
    constructor
    · intro h
      have hdiv := congrArg (· / v.pitch) h
      have hmod := congrArg (· % v.pitch) h
      simp only [Nat.mul_comm _ v.pitch, Nat.mul_add_div hpos, Nat.mul_add_mod,
        Nat.div_eq_of_lt (show x < v.pitch by omega), Nat.div_eq_of_lt (show x' < v.pitch by omega),
        Nat.mod_eq_of_lt (show x < v.pitch by omega), Nat.mod_eq_of_lt (show x' < v.pitch by omega),
        Nat.add_zero] at hdiv hmod
      exact ⟨hmod, hdiv⟩
    · rintro ⟨rfl, rfl⟩
      rfl
  simp only [pixel, setPixel, hiff]

/-- One line of a box. -/
theorem pixel_drawLine (hpx : px + n ≤ vesaWidth) (hx : x < vesaWidth) (row : Nat → UInt32) :
    ((List.range n).foldl (fun v col => v.setPixel (px + col) y' (row col)) v).pixel x y =
      if y = y' ∧ px ≤ x ∧ x < px + n then row (x - px) else v.pixel x y := by
  induction n with
  | zero => rw [List.range_zero, List.foldl_nil, if_neg (by omega)]
  | succ n ih =>
    rw [List.range_succ, List.foldl_append, List.foldl_cons, List.foldl_nil,
      pixel_setPixel (by omega) hx, ih (by omega)]
    by_cases hlast : x = px + n ∧ y = y'
    · obtain ⟨rfl, rfl⟩ := hlast
      rw [if_pos ⟨rfl, rfl⟩, if_pos ⟨rfl, by omega, by omega⟩, Nat.add_sub_cancel_left]
    · rw [if_neg hlast]
      by_cases hin : y = y' ∧ px ≤ x ∧ x < px + n
      · rw [if_pos hin, if_pos (by omega)]
      · rw [if_neg hin, if_neg (by omega)]

end Vesa

namespace Tty

variable {t t' t₁ : Tty} {S R : Nat → Prop} {c : UInt8} {tc : TtyChar} {i j n line px py x y : Nat}
  {v : Vesa} {colors : Nat → Nat → UInt32}

/-- The box is drawn, and nothing else. -/
theorem pixel_drawBox (hpx : px + ttyCharWidth ≤ vesaWidth) (hx : x < vesaWidth) :
    (drawBox px py colors v).pixel x y =
      if (py ≤ y ∧ y < py + ttyCharHeight) ∧ px ≤ x ∧ x < px + ttyCharWidth then
        colors (x - px) (y - py) else v.pixel x y := by
  unfold drawBox
  generalize ttyCharHeight = h
  induction h with
  | zero => rw [List.range_zero, List.foldl_nil, if_neg (by omega)]
  | succ h ih =>
    rw [List.range_succ, List.foldl_append, List.foldl_cons, List.foldl_nil,
      Vesa.pixel_drawLine hpx hx fun col => colors col h, ih]
    by_cases hlast : y = py + h ∧ px ≤ x ∧ x < px + ttyCharWidth
    · obtain ⟨rfl, hlo, hhi⟩ := hlast
      rw [if_pos ⟨rfl, hlo, hhi⟩, if_pos ⟨⟨by omega, by omega⟩, hlo, hhi⟩, Nat.add_sub_cancel_left]
    · rw [if_neg hlast]
      by_cases hin : (py ≤ y ∧ y < py + h) ∧ px ≤ x ∧ x < px + ttyCharWidth
      · rw [if_pos hin, if_pos ⟨⟨hin.1.1, by omega⟩, hin.2⟩]
      · rw [if_neg hin, if_neg fun hbox => ?_]
        rcases Nat.lt_or_ge y (py + h) with hlt | hge
        · exact hin ⟨⟨hbox.1.1, hlt⟩, hbox.2⟩
        · exact hlast ⟨by omega, hbox.2⟩

/-! ## Cells that are shown -/

/-- The colours of a cell. -/
def cellColor (t : Tty) (tc : TtyChar) (col row : Nat) : UInt32 :=
  if tc.c = 0 then t.bg else t.glyphColor tc col row

/-- The pixels of the cell have the colours of this character. -/
def ShowsAs (t : Tty) (i : Nat) (tc : TtyChar) : Prop :=
  ∀ col < ttyCharWidth, ∀ row < ttyCharHeight,
    t.vesa.pixel (i % ttyCols * ttyCharWidth + col) (i / ttyCols * ttyCharHeight + row) =
      t.cellColor tc col row

/-- The cell is on the screen as it is in the backbuffer. -/
def Shows (t : Tty) (i : Nat) : Prop := t.ShowsAs i (t.backbuffer i)

/-- The framebuffer shows the backbuffer. -/
def UpToDate (t : Tty) : Prop := ∀ i < ttyBackbufferSize, t.Shows i

/-- The cells of `S` have been drawn, and nothing else has happened. -/
structure Drawn (S : Nat → Prop) (t t' : Tty) : Prop where
  same : t' = { t with vesa := t'.vesa }
  shows : ∀ i < ttyBackbufferSize, t'.Shows i ↔ S i ∨ t.Shows i

theorem Drawn.refl (t : Tty) (h : ∀ i < ttyBackbufferSize, ¬ S i) : Drawn S t t :=
  ⟨rfl, fun i hi => by simp [h i hi]⟩

theorem Drawn.trans (h : Drawn S t t₁) (h' : Drawn R t₁ t') :
    Drawn (fun i => S i ∨ R i) t t' := by
  refine ⟨?_, fun i hi => ?_⟩
  · rw [h'.same, h.same]
  · rw [h'.shows i hi, h.shows i hi]
    tauto

theorem Drawn.congr (h : Drawn S t t') (hS : ∀ i < ttyBackbufferSize, S i ↔ R i) : Drawn R t t' :=
  ⟨h.same, fun i hi => by rw [h.shows i hi, hS i hi]⟩

theorem Drawn.upToDate (h : Drawn (fun _ => True) t t') : t'.UpToDate :=
  fun i hi => (h.shows i hi).2 (.inl trivial)

theorem ttyCols_pos : 0 < ttyCols := by decide

/-- A cell is drawn into its own box. -/
theorem drawn_cell (hv : v = drawBox (i % ttyCols * ttyCharWidth) (i / ttyCols * ttyCharHeight)
    (t.cellColor (t.backbuffer i)) t.vesa) : Drawn (· = i) t { t with vesa := v } := by
  have hpixel (j col row : Nat) (hcol : col < ttyCharWidth) (hrow : row < ttyCharHeight) :
      v.pixel (j % ttyCols * ttyCharWidth + col) (j / ttyCols * ttyCharHeight + row) =
        if j = i then t.cellColor (t.backbuffer i) col row
        else t.vesa.pixel (j % ttyCols * ttyCharWidth + col) (j / ttyCols * ttyCharHeight + row) := by
    have hi := Nat.mod_lt i ttyCols_pos
    have hj := Nat.mod_lt j ttyCols_pos
    have hdivi := Nat.div_add_mod i ttyCols
    have hdivj := Nat.div_add_mod j ttyCols
    simp only [show ttyCols = 128 from rfl, show ttyCharWidth = 8 from rfl,
      show ttyCharHeight = 16 from rfl] at *
    rw [hv, pixel_drawBox (by simp only [show vesaWidth = 1024 from rfl,
      show ttyCharWidth = 8 from rfl]; omega) (by simp only [show vesaWidth = 1024 from rfl]; omega)]
    simp only [show ttyCharWidth = 8 from rfl, show ttyCharHeight = 16 from rfl]
    by_cases hji : j = i
    · subst hji
      rw [if_pos rfl, if_pos (by omega), Nat.add_sub_cancel_left, Nat.add_sub_cancel_left]
    · rw [if_neg hji, if_neg (by omega)]
  refine ⟨rfl, fun j hj => ?_⟩
  have hcolors : { t with vesa := v }.cellColor = t.cellColor := rfl
  unfold Shows ShowsAs
  rw [hcolors]
  by_cases hji : j = i
  · subst hji
    refine ⟨fun _ => .inl rfl, fun _ col hcol row hrow => ?_⟩
    rw [hpixel j col row hcol hrow, if_pos rfl]
  · rw [or_iff_right hji]
    refine forall₄_congr fun col hcol row hrow => ?_
    rw [hpixel j col row hcol hrow, if_neg hji]

theorem flushCell_spec (hi : i < ttyBackbufferSize) :
    ∃ t', flushCell i t = .ok t' ∧ Drawn (· = i) t t' := by
  unfold flushCell cell
  rw [if_pos hi, ok_bind]
  simp only
  split
  · rename_i hzero
    refine ⟨_, rfl, drawn_cell ?_⟩
    have hcolor : t.cellColor (t.backbuffer i) = fun _ _ => t.bg := by
      funext col row
      exact if_pos hzero
    rw [hcolor]
  · rename_i hne
    refine ⟨_, rfl, drawn_cell ?_⟩
    have hcolor : t.cellColor (t.backbuffer i) = t.glyphColor (t.backbuffer i) := by
      funext col row
      exact if_neg hne
    rw [hcolor]

theorem flushCells_spec (h : i + n ≤ ttyBackbufferSize) :
    ∃ t', flushCells n i t = .ok t' ∧ Drawn (fun j => i ≤ j ∧ j < i + n) t t' := by
  induction n generalizing i t with
  | zero => exact ⟨t, rfl, .refl t fun j _ => by omega⟩
  | succ n ih =>
    obtain ⟨t₁, hcell, hdrawn⟩ := @flushCell_spec t i (by omega)
    obtain ⟨t', hrest, hdrawn'⟩ := @ih t₁ (i + 1) (by omega)
    refine ⟨t', by rw [flushCells, hcell, ok_bind, hrest], (hdrawn.trans hdrawn').congr fun j _ => ?_⟩
    omega

theorem flush_spec (t : Tty) : ∃ t', flush t = .ok t' ∧ Drawn (fun _ => True) t t' := by
  obtain ⟨t', hflush, hdrawn⟩ := @flushCells_spec t 0 ttyBackbufferSize (by omega)
  exact ⟨t', hflush, hdrawn.congr fun j hj => by simp; omega⟩

theorem flushLine_spec (h : line < ttyRows) :
    ∃ t', flushLine line t = .ok t' ∧ Drawn (fun j => j / ttyCols = line) t t' := by
  have hrows : ttyBackbufferSize = ttyRows * ttyCols := Nat.mul_comm _ _
  have hend : line * ttyCols + ttyCols ≤ ttyBackbufferSize := by
    rw [hrows, ← Nat.succ_mul]
    exact Nat.mul_le_mul_right _ h
  obtain ⟨t', hflush, hdrawn⟩ := @flushCells_spec t (line * ttyCols) ttyCols hend
  refine ⟨t', hflush, hdrawn.congr fun j _ => ?_⟩
  rw [Nat.div_eq_iff ttyCols_pos]
  simp only [show ttyCols = 128 from rfl]
  omega

/-- `tty_flush_from` draws the lines up to that of the cursor. -/
theorem flushLines_spec (h : line + n ≤ ttyRows) : ∃ t', flushLines n line t = .ok t' ∧
    Drawn (fun j => line ≤ j / ttyCols ∧ j / ttyCols < line + n) t t' := by
  induction n generalizing line t with
  | zero => exact ⟨t, rfl, .refl t fun j _ => by omega⟩
  | succ n ih =>
    obtain ⟨t₁, hline, hdrawn⟩ := @flushLine_spec t line (by omega)
    obtain ⟨t', hrest, hdrawn'⟩ := @ih t₁ (line + 1) (by omega)
    refine ⟨t', by rw [flushLines, hline, ok_bind, hrest],
      (hdrawn.trans hdrawn').congr fun j _ => ?_⟩
    omega

end Tty

end Kaku
