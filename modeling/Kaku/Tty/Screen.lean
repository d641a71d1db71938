-- SUMMARY: The terminal: a backbuffer of characters with a cursor, and the framebuffer that it is drawn into.
import Kaku.Klib.Print
import Kaku.Mm.Boot

/-!
# The terminal

`tty/src/tty.c`, and the pixels of `dev/src/vesa.c`. An index past the end of the
backbuffer is a fault.
-/

namespace Kaku

def ttyCharWidth : Nat := 8
def ttyCharHeight : Nat := 16

/-- `VESA_WIDTH / TTY_CHAR_WIDTH` and `VESA_HEIGHT / TTY_CHAR_HEIGHT`. -/
def ttyCols : Nat := vesaWidth / ttyCharWidth
def ttyRows : Nat := vesaHeight / ttyCharHeight

def ttyBackbufferSize : Nat := ttyCols * ttyRows

/-- `vesa_framebuffer` and `vesa_pitch`, in pixels. The lines of the display do not overlap. -/
structure Vesa where
  framebuffer : Nat → UInt32
  pitch : Nat
  wide : vesaWidth ≤ pitch

namespace Vesa

def setPixel (v : Vesa) (x y : Nat) (color : UInt32) : Vesa :=
  { v with framebuffer := fun i => if i = y * v.pitch + x then color else v.framebuffer i }

def pixel (v : Vesa) (x y : Nat) : UInt32 := v.framebuffer (y * v.pitch + x)

end Vesa

/-- `tty_char`. -/
structure TtyChar where
  c : UInt8
  fg : UInt32
  bg : UInt32
  deriving DecidableEq

/-- What `kmemset` with 0 makes of a cell. -/
def TtyChar.zero : TtyChar := ⟨0, 0, 0⟩

/-- The variables of the terminal, and the screen. `psf` is `default8x16_psf` by offset; the offset
of a glyph is negative where the character is. -/
structure Tty where
  backbuffer : Nat → TtyChar
  cursorX : Nat
  cursorY : Nat
  fg : UInt32
  bg : UInt32
  psf : Int → UInt8
  vesa : Vesa

namespace Tty

/-! ## The backbuffer -/

def cell (t : Tty) (i : Nat) : K TtyChar :=
  if i < ttyBackbufferSize then .ok (t.backbuffer i) else .error .wild

def setCell (t : Tty) (i : Nat) (tc : TtyChar) : K Tty :=
  if i < ttyBackbufferSize then
    .ok { t with backbuffer := fun j => if j = i then tc else t.backbuffer j }
  else .error .wild

/-- `kmemcpy` of `n` cells, the first one first. -/
def copyCells : (n dst src : Nat) → Tty → K Tty
  | 0, _, _, t => .ok t
  | n + 1, dst, src, t => do
    let tc ← t.cell src
    let t ← t.setCell dst tc
    copyCells n (dst + 1) (src + 1) t

/-- `kmemset` of `n` cells with 0. -/
def clearCells : (n dst : Nat) → Tty → K Tty
  | 0, _, t => .ok t
  | n + 1, dst, t => do
    let t ← t.setCell dst .zero
    clearCells n (dst + 1) t

/-! ## Drawing -/

/-- The colours of a character that is not 0: `glyph[row] & (0x80 >> col)`. -/
def glyphColor (t : Tty) (tc : TtyChar) (col row : Nat) : UInt32 :=
  let bits := t.psf (6 + tc.c.toInt8.toInt * ttyCharHeight + row)
  if bits &&& (0x80 >>> UInt8.ofNat col) ≠ 0 then tc.fg else tc.bg

/-- Draw 8 by 16 pixels, line by line. -/
def drawBox (px py : Nat) (color : Nat → Nat → UInt32) (v : Vesa) : Vesa :=
  (List.range ttyCharHeight).foldl (fun v row =>
    (List.range ttyCharWidth).foldl (fun v col => v.setPixel (px + col) (py + row) (color col row)) v) v

def flushChar (t : Tty) (tc : TtyChar) (px py : Nat) : Tty :=
  { t with vesa := drawBox px py (t.glyphColor tc) t.vesa }

def flushCell (i : Nat) (t : Tty) : K Tty := do
  let tc ← t.cell i
  let px := i % ttyCols * ttyCharWidth
  let py := i / ttyCols * ttyCharHeight
  if tc.c = 0 then pure { t with vesa := drawBox px py (fun _ _ => t.bg) t.vesa }
  else pure (t.flushChar tc px py)

/-- `for (i = from; i < from + n; ++i) __tty_flush_cell(i);` -/
def flushCells : (n i : Nat) → Tty → K Tty
  | 0, _, t => .ok t
  | n + 1, i, t => do
    let t ← flushCell i t
    flushCells n (i + 1) t

def flushLine (line : Nat) (t : Tty) : K Tty := flushCells ttyCols (line * ttyCols) t

/-- `tty_flush`. -/
def flush (t : Tty) : K Tty := flushCells ttyBackbufferSize 0 t

/-- The loop of `tty_flush_from` over `n` lines. -/
def flushLines : (n line : Nat) → Tty → K Tty
  | 0, _, t => .ok t
  | n + 1, line, t => do
    let t ← flushLine line t
    flushLines n (line + 1) t

def flushFrom (fromLine : Nat) (t : Tty) : K Tty :=
  flushLines (t.cursorY + 1 - fromLine) fromLine t

def flushCurrentLine (t : Tty) : K Tty := flushLine t.cursorY t

/-! ## Writing -/

def scroll (t : Tty) : K Tty := do
  let t ← copyCells (ttyBackbufferSize - ttyCols) 0 ttyCols t
  let t ← clearCells ttyCols ((ttyRows - 1) * ttyCols) t
  flush { t with cursorY := ttyRows - 1 }

/-- `if (tty_cursor_y >= VESA_HEIGHT / TTY_CHAR_HEIGHT) __tty_scroll();` -/
def scrollAtEnd (t : Tty) : K Tty := if ttyRows ≤ t.cursorY then t.scroll else .ok t

def newline (t : Tty) : K Tty := do
  let t ← flushLine t.cursorY { t with cursorX := 0 }
  scrollAtEnd { t with cursorY := t.cursorY + 1 }

def formFeed : UInt8 := 0x0C

def putchar (c : UInt8) (t : Tty) : K Tty :=
  if c = formFeed then t.flush
  else if c = charNewline then t.newline
  else do
    let t ← t.setCell (t.cursorY * ttyCols + t.cursorX) ⟨c, t.fg, t.bg⟩
    let t := { t with cursorX := t.cursorX + 1 }
    if ttyCols ≤ t.cursorX then scrollAtEnd { t with cursorX := 0, cursorY := t.cursorY + 1 }
    else pure t

/-- The end of `tty_backspace`, with the cursor on the cell. -/
def blankCell (t : Tty) : K Tty := do
  let index := t.cursorY * ttyCols + t.cursorX
  let tc ← t.cell index
  let t ← t.setCell index { tc with c := 0 }
  flushCell index t

def backspace (t : Tty) : K Tty :=
  if t.cursorX = 0 then
    if t.cursorY = 0 then .ok t
    else blankCell { t with cursorX := ttyCols - 1, cursorY := t.cursorY - 1 }
  else blankCell { t with cursorX := t.cursorX - 1 }

/-- `tty_puts`. -/
def puts (s : List UInt8) (t : Tty) : K Tty := putChars putchar s t

def printf (s : List UInt8) (args : List Arg) (t : Tty) : K Tty :=
  kvprintfTo putchar newline s args t

/-- `tty_init`. -/
def init (t : Tty) : K Tty :=
  clearCells ttyBackbufferSize 0 { t with cursorX := 0, cursorY := 0 }

end Tty

end Kaku
