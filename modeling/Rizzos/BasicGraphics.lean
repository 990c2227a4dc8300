import Rizzos.BootFiles
import Rizzos.CInt
import Rizzos.ScatteredWrites

set_option autoImplicit false

/-!
# The screen of `graphics/basic_graphics.c`

A pixel of the frame buffer is named by its distance from the base address, counted in pixels.
Nothing bounds that distance: a write past the end of the buffer is a write to a pixel too.
-/
namespace Rizzos.BasicGraphics
open ByteMemory BootFiles CInt ScatteredWrites

abbrev Color := BitVec 32

structure FrameBuffer where
  bufferSize : ℕ
  width : ℕ
  height : ℕ
  pixelPerScanLine : ℕ
  width_lt : width < 2 ^ 32
  height_lt : height < 2 ^ 32

structure Point where
  x : ℕ
  y : ℕ
deriving DecidableEq, Repr

def Point.add (p q : Point) : Point := ⟨p.x + q.x, p.y + q.y⟩

def FrameBuffer.pixel (fb : FrameBuffer) (p : Point) : ℕ := p.x + p.y * fb.pixelPerScanLine

def FrameBuffer.OnScreen (fb : FrameBuffer) (p : Point) : Prop := p.x < fb.width ∧ p.y < fb.height

def mousePointerWidth : ℕ := 11
def mousePointerHeight : ℕ := 18

def uiMousePointer : List ℕ :=
  [1, 0, 0, 0, 0, 0, 0, 0, 0, 0, 0,
   1, 1, 0, 0, 0, 0, 0, 0, 0, 0, 0,
   1, 2, 1, 0, 0, 0, 0, 0, 0, 0, 0,
   1, 2, 2, 1, 0, 0, 0, 0, 0, 0, 0,
   1, 2, 2, 2, 1, 0, 0, 0, 0, 0, 0,
   1, 2, 2, 2, 2, 1, 0, 0, 0, 0, 0,
   1, 2, 2, 2, 2, 2, 1, 0, 0, 0, 0,
   1, 2, 2, 2, 2, 2, 2, 1, 0, 0, 0,
   1, 2, 2, 2, 2, 2, 2, 2, 1, 0, 0,
   1, 2, 2, 2, 2, 2, 2, 2, 2, 1, 0,
   1, 2, 2, 2, 2, 2, 2, 2, 2, 2, 1,
   1, 2, 2, 2, 2, 2, 2, 1, 1, 1, 1,
   1, 2, 2, 2, 1, 2, 2, 1, 0, 0, 0,
   1, 2, 2, 1, 0, 1, 2, 2, 1, 0, 0,
   1, 2, 1, 0, 0, 1, 2, 2, 1, 0, 0,
   1, 1, 0, 0, 0, 0, 1, 2, 2, 1, 0,
   0, 0, 0, 0, 0, 0, 1, 2, 2, 1, 0,
   0, 0, 0, 0, 0, 0, 0, 1, 1, 0, 0]

/-- The frame buffer's pixels and the statics of the file. `touched` and `fontRead` are
    histories, newest first: the pixels read or written, and the distances from the start of
    the glyph buffer of the bytes read. -/
structure Graphics where
  pixels : ℕ → Color
  cursorPosition : Point
  color : Color
  bgColor : Color
  lastMouseCurPos : Point
  mouseLastCursorBuffer : ℕ → Color
  touched : List Point
  fontRead : List ℤ

def defaultCurX : ℕ := 8
def defaultCurY : ℕ := 16

def initialGraphics (pixels : ℕ → Color) : Graphics where
  pixels := pixels
  cursorPosition := ⟨defaultCurX, defaultCurY⟩
  color := 0xFFFFFFFF
  bgColor := 0
  lastMouseCurPos := ⟨0, 0⟩
  mouseLastCursorBuffer _ := 0
  touched := []
  fontRead := []

def cells (width height : ℕ) : List Point :=
  (List.range height).flatMap fun y => (List.range width).map fun x => ⟨x, y⟩

def touch (p : Point) (s : Graphics) : Graphics := { s with touched := p :: s.touched }

section Operations
variable (fb : FrameBuffer) (font : Psf1Font)

def setPixel (p : Point) (color : Color) (s : Graphics) : Graphics :=
  { touch p s with pixels := Function.update s.pixels (fb.pixel p) color }

def bgResetCursor (s : Graphics) : Graphics :=
  { s with cursorPosition := ⟨defaultCurX, defaultCurY⟩ }

def FrameBuffer.pointAt (i : ℕ) : Point := ⟨i % fb.pixelPerScanLine, i / fb.pixelPerScanLine⟩

/-- `MEM_Set32` over the buffer: a turn for every four bytes that it begins. -/
def bgClearBg (s : Graphics) : Graphics :=
  (List.range ((fb.bufferSize + 3) / 4)).foldl (fun s i => setPixel fb (fb.pointAt i) s.bgColor s) s

def clearBuffer (s : Graphics) : Graphics := bgResetCursor (bgClearBg fb s)

/-- The distance of the glyph of a signed character from the start of the glyph buffer. -/
def fontPtr (chr : Byte) : ℤ := chr.toInt * font.psfHeader.charsize.toNat

/-- `(*fontPtr & (128 >> x)) > 0` in row `y` of the glyph. -/
def glyphBit (chr : Byte) (cell : Point) : Bool :=
  font.glyphBuffer (fontPtr font chr + cell.y) &&& 128#8 >>> cell.x != 0#8

def putCharCell (chr : Byte) (s : Graphics) (cell : Point) : Graphics :=
  let s := { s with fontRead := (fontPtr font chr + cell.y) :: s.fontRead }
  if glyphBit font chr cell then setPixel fb (s.cursorPosition.add cell) s.color s else s

/-- What follows a change of line: a screen that is full is cleared. -/
def clearIfFull (s : Graphics) : Graphics :=
  if s.cursorPosition.y > uint32 (fb.height - 16) then clearBuffer fb s else s

def bgPutChar (chr : Byte) (s : Graphics) : Graphics :=
  let s := (cells 8 16).foldl (putCharCell fb font chr) s
  let p : Point := ⟨s.cursorPosition.x + defaultCurX, s.cursorPosition.y⟩
  let p := if p.x > fb.width then ⟨defaultCurX, p.y + defaultCurY⟩ else p
  clearIfFull fb { s with cursorPosition := p }

def bgNextLine (s : Graphics) : Graphics :=
  clearIfFull fb { s with cursorPosition := ⟨defaultCurX, s.cursorPosition.y + defaultCurY⟩ }

def bgPutTab (s : Graphics) : Graphics :=
  let s := { s with cursorPosition := ⟨s.cursorPosition.x + defaultCurX * 4, s.cursorPosition.y⟩ }
  if s.cursorPosition.x > fb.width then bgNextLine fb s else s

def clearCharCell (s : Graphics) (cell : Point) : Graphics :=
  setPixel fb (s.cursorPosition.add cell) s.bgColor s

def bgClearChar (s : Graphics) : Graphics :=
  if s.cursorPosition.x > defaultCurX then
    let p : Point := ⟨s.cursorPosition.x - defaultCurX, s.cursorPosition.y⟩
    (cells 8 16).foldl (clearCharCell fb) { s with cursorPosition := p }
  else s

def pointerIndex (cell : Point) : ℕ := cell.x + cell.y * mousePointerWidth

def clearLastCell (s : Graphics) (cell : Point) : Graphics :=
  setPixel fb (cell.add s.lastMouseCurPos) (s.mouseLastCursorBuffer (pointerIndex cell)) s

def clearLastMouseCurPos (s : Graphics) : Graphics :=
  (cells mousePointerWidth mousePointerHeight).foldl (clearLastCell fb) s

def pointerColor (cell : Point) : Option Color :=
  let shape := uiMousePointer.getD (pointerIndex cell) 0
  if shape = 0 then none else if shape = 1 then some 0xFFFFFFFF else some 0

def drawCursorCell (offset : Point) (s : Graphics) (cell : Point) : Graphics :=
  let p := cell.add offset
  let saved := Function.update s.mouseLastCursorBuffer (pointerIndex cell) (s.pixels (fb.pixel p))
  let s := { touch p s with mouseLastCursorBuffer := saved }
  match pointerColor cell with
  | none => s
  | some color => setPixel fb p color s

def clampOffset (x y : ℕ) : Point where
  x := if x > uint32 (fb.width - mousePointerWidth) then uint32 (fb.width - mousePointerWidth - 1)
    else x
  y := if y > uint32 (fb.height - mousePointerHeight)
    then uint32 (fb.height - mousePointerHeight - 1) else y

def bgDrawCursor (x y : ℕ) (s : Graphics) : Graphics :=
  let offset := clampOffset fb x y
  let s := (cells mousePointerWidth mousePointerHeight).foldl (drawCursorCell fb offset)
    (clearLastMouseCurPos fb s)
  { s with lastMouseCurPos := offset }

end Operations

theorem mem_cells {width height : ℕ} {cell : Point} :
    cell ∈ cells width height ↔ cell.x < width ∧ cell.y < height := by
  simp only [cells, List.mem_flatMap, List.mem_range, List.mem_map]
  constructor
  · rintro ⟨y, hy, x, hx, rfl⟩
    exact ⟨hx, hy⟩
  · exact fun h => ⟨cell.y, h.2, cell.x, h.1, rfl⟩

theorem cells_nodup (width height : ℕ) : (cells width height).Nodup := by
  apply List.nodup_flatMap.2
  constructor
  · intro y _
    exact List.nodup_range.map fun x x' h => congrArg Point.x h
  · apply List.nodup_range.imp
    intro y y' hne p hp hp'
    obtain ⟨x, _, rfl⟩ := List.mem_map.1 hp
    obtain ⟨x', _, heq⟩ := List.mem_map.1 hp'
    exact hne (congrArg Point.y heq).symm

theorem row_col_inj {n x x' y y' : ℕ} (hx : x < n) (hx' : x' < n) (h : x + y * n = x' + y' * n) :
    x = x' ∧ y = y' := by
  have hmod : ∀ z w : ℕ, z < n → (z + w * n) % n = z := by
    intro z w hz
    rw [Nat.add_mul_mod_self_right, Nat.mod_eq_of_lt hz]
  have hcol : x = x' := by
    rw [← hmod x y hx, h, hmod x' y' hx']
  have hrow : y * n = y' * n := by omega
  exact ⟨hcol, Nat.eq_of_mul_eq_mul_right (by omega) hrow⟩

theorem pixels_nodup (fb : FrameBuffer) {width : ℕ} (height : ℕ)
    (hline : width ≤ fb.pixelPerScanLine) (p : Point) :
    ((cells width height).map fun cell => fb.pixel (cell.add p)).Nodup := by
  apply (cells_nodup width height).map_on
  intro c hc d hd heq
  have hcx := (mem_cells.1 hc).1
  have hdx := (mem_cells.1 hd).1
  have hsplit : ∀ e : Point, fb.pixel (e.add p) =
      e.x + e.y * fb.pixelPerScanLine + (p.x + p.y * fb.pixelPerScanLine) := by
    intro e
    change e.x + p.x + (e.y + p.y) * fb.pixelPerScanLine = _
    ring
  rw [hsplit, hsplit] at heq
  have hsame := row_col_inj (by omega) (by omega) (Nat.add_right_cancel heq)
  exact congrArg₂ Point.mk hsame.1 hsame.2

-- Nothing from here on looks into the lists of points.
attribute [irreducible] cells

/-! ### What the loops draw -/

section Loops
variable {fb : FrameBuffer} {font : Psf1Font} {ι : Type}

def drawnPoints (position : ι → Point) (value : ι → Option Color) (l : List ι) : List Point :=
  (l.filterMap fun i => (value i).map fun _ => position i).reverse

/-- The state after a loop that draws the colour of a turn, if it has one, at its point. -/
def paint (fb : FrameBuffer) (position : ι → Point) (value : ι → Option Color) (l : List ι)
    (s : Graphics) : Graphics :=
  { s with pixels := scatter (fun i => fb.pixel (position i)) value l s.pixels
           touched := drawnPoints position value l ++ s.touched }

theorem paint_cons_some (position : ι → Point) (value : ι → Option Color) {i : ι} {color : Color}
    (h : value i = some color) (l : List ι) (s : Graphics) :
    paint fb position value (i :: l) s =
      paint fb position value l (setPixel fb (position i) color s) := by
  have hput : put (fun i => fb.pixel (position i)) value s.pixels i =
      Function.update s.pixels (fb.pixel (position i)) color := by
    rw [put, h]
  simp [paint, drawnPoints, scatter, setPixel, touch, h, hput]

theorem paint_cons_none (position : ι → Point) (value : ι → Option Color) {i : ι}
    (h : value i = none) (l : List ι) (s : Graphics) :
    paint fb position value (i :: l) s = paint fb position value l s := by
  have hput : put (fun i => fb.pixel (position i)) value s.pixels i = s.pixels := by
    rw [put, h]
  simp [paint, drawnPoints, scatter, h, hput]

theorem mem_drawnPoints {position : ι → Point} {value : ι → Option Color} {l : List ι}
    {p : Point} : p ∈ drawnPoints position value l ↔
      ∃ i ∈ l, (value i).isSome ∧ p = position i := by
  simp only [drawnPoints, List.mem_reverse, List.mem_filterMap, Option.map_eq_some_iff,
    Option.isSome_iff_exists]
  constructor
  · rintro ⟨i, hi, color, hcolor, rfl⟩
    exact ⟨i, hi, ⟨color, hcolor⟩, rfl⟩
  · rintro ⟨i, hi, ⟨color, hcolor⟩, rfl⟩
    exact ⟨i, hi, color, hcolor, rfl⟩

theorem bgClearBg_eq (s : Graphics) : bgClearBg fb s =
    paint fb fb.pointAt (fun _ => some s.bgColor) (List.range ((fb.bufferSize + 3) / 4)) s := by
  unfold bgClearBg
  generalize List.range ((fb.bufferSize + 3) / 4) = l
  induction l generalizing s with
  | nil => rfl
  | cons i l ih =>
    rw [List.foldl_cons, ih]
    exact (paint_cons_some fb.pointAt (fun _ => some s.bgColor) rfl l s).symm

theorem foldl_clearCharCell (l : List Point) (s : Graphics) :
    l.foldl (clearCharCell fb) s =
      paint fb s.cursorPosition.add (fun _ => some s.bgColor) l s := by
  induction l generalizing s with
  | nil => rfl
  | cons cell l ih =>
    rw [List.foldl_cons, ih]
    exact (paint_cons_some s.cursorPosition.add (fun _ => some s.bgColor) rfl l s).symm

def glyphColor (font : Psf1Font) (chr : Byte) (color : Color) (cell : Point) : Option Color :=
  if glyphBit font chr cell then some color else none

theorem foldl_putCharCell (chr : Byte) (l : List Point) (s : Graphics) :
    l.foldl (putCharCell fb font chr) s =
      { paint fb s.cursorPosition.add (glyphColor font chr s.color) l s with
        fontRead := (l.map fun cell => fontPtr font chr + cell.y).reverse ++ s.fontRead } := by
  induction l generalizing s with
  | nil => rfl
  | cons cell l ih =>
    rw [List.foldl_cons, ih, List.map_cons, List.reverse_cons, List.append_assoc]
    by_cases hbit : glyphBit font chr cell
    · have hcolor : glyphColor font chr s.color cell = some s.color := if_pos hbit
      rw [paint_cons_some _ _ hcolor, putCharCell, if_pos hbit]
      rfl
    · have hcolor : glyphColor font chr s.color cell = none := if_neg hbit
      rw [paint_cons_none _ _ hcolor, putCharCell, if_neg hbit]
      rfl

theorem foldl_clearLastCell (l : List Point) (s : Graphics) :
    l.foldl (clearLastCell fb) s =
      paint fb (fun cell => cell.add s.lastMouseCurPos)
        (fun cell => some (s.mouseLastCursorBuffer (pointerIndex cell))) l s := by
  induction l generalizing s with
  | nil => rfl
  | cons cell l ih =>
    rw [List.foldl_cons, ih]
    exact (paint_cons_some (fun cell : Point => cell.add s.lastMouseCurPos)
      (fun cell => some (s.mouseLastCursorBuffer (pointerIndex cell))) rfl l s).symm

def cursorPoints (offset : Point) (l : List Point) : List Point :=
  (l.flatMap fun cell => (pointerColor cell).elim [cell.add offset]
    fun _ => [cell.add offset, cell.add offset]).reverse

theorem mem_cursorPoints {offset : Point} {l : List Point} {p : Point} :
    p ∈ cursorPoints offset l ↔ ∃ cell ∈ l, p = cell.add offset := by
  rw [cursorPoints, List.mem_reverse, List.mem_flatMap]
  apply exists_congr
  intro cell
  apply and_congr_right
  intro _
  cases pointerColor cell <;> simp

theorem foldl_drawCursorCell (offset : Point) (l : List Point) (s : Graphics) :
    l.foldl (drawCursorCell fb offset) s =
      { s with
        mouseLastCursorBuffer := (l.foldl (exchange (fun cell => fb.pixel (cell.add offset))
          pointerIndex pointerColor) (s.mouseLastCursorBuffer, s.pixels)).1
        pixels := (l.foldl (exchange (fun cell => fb.pixel (cell.add offset)) pointerIndex
          pointerColor) (s.mouseLastCursorBuffer, s.pixels)).2
        touched := cursorPoints offset l ++ s.touched } := by
  induction l generalizing s with
  | nil => rfl
  | cons cell l ih =>
    rw [List.foldl_cons, List.foldl_cons, ih, exchange, put, drawCursorCell]
    cases hcolor : pointerColor cell with
    | none => simp [cursorPoints, touch, hcolor]
    | some color => simp [cursorPoints, touch, setPixel, hcolor]

end Loops

end Rizzos.BasicGraphics
