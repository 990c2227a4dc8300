import Rizzos.BasicGraphics

set_option autoImplicit false

/-! The mouse pointer on the screen: the pixels under it are saved, and put back before the
pointer is drawn anew. -/
namespace Rizzos.MouseCursor
open CInt ScatteredWrites BasicGraphics

structure PointerScreen (fb : FrameBuffer) : Prop where
  width_le : 12 ≤ fb.width
  height_le : 19 ≤ fb.height
  line_le : fb.width ≤ fb.pixelPerScanLine

structure InBounds (fb : FrameBuffer) (p : Point) : Prop where
  x_le : p.x + mousePointerWidth ≤ fb.width
  y_le : p.y + mousePointerHeight ≤ fb.height

abbrev pointerCells : List Point := cells mousePointerWidth mousePointerHeight

section Images
variable (fb : FrameBuffer)

def pointerPixel (p cell : Point) : ℕ := fb.pixel (cell.add p)

def cellAt (p : Point) (k : ℕ) : Option Point := pointerCells.find? (pointerPixel fb p · = k)

/-- The frame buffer with the saved pixels put back at the last position. -/
def cleanImage (s : Graphics) : ℕ → Color := fun k =>
  match cellAt fb s.lastMouseCurPos k with
  | some cell => s.mouseLastCursorBuffer (pointerIndex cell)
  | none => s.pixels k

/-- An image with the opaque cells of the pointer at `p` over it. -/
def overlaid (image : ℕ → Color) (p : Point) : ℕ → Color := fun k =>
  match cellAt fb p k with
  | some cell => (pointerColor cell).getD (image k)
  | none => image k

def drawCursors (moves : List (ℕ × ℕ)) (s : Graphics) : Graphics :=
  moves.foldl (fun s move => bgDrawCursor fb move.1 move.2 s) s

variable {fb}

theorem PointerScreen.pixels_nodup (h : PointerScreen fb) (p : Point) :
    (pointerCells.map (pointerPixel fb p)).Nodup := by
  have hwidth := h.width_le
  have hline := h.line_le
  apply BasicGraphics.pixels_nodup fb mousePointerHeight
  change 11 ≤ _
  omega

theorem pointerIndex_nodup : (pointerCells.map pointerIndex).Nodup := by
  apply (cells_nodup _ _).map_on
  intro c hc d hd heq
  have hsame := row_col_inj (mem_cells.1 hc).1 (mem_cells.1 hd).1 heq
  exact congrArg₂ Point.mk hsame.1 hsame.2

theorem cellAt_some {p cell : Point} {k : ℕ} (h : cellAt fb p k = some cell) :
    cell ∈ pointerCells ∧ k = pointerPixel fb p cell := by
  refine ⟨List.mem_of_find?_eq_some h, ?_⟩
  have : pointerPixel fb p cell = k := by simpa using List.find?_some h
  exact this.symm

theorem cellAt_isSome {p cell : Point} (hcell : cell ∈ pointerCells) :
    (cellAt fb p (pointerPixel fb p cell)).isSome :=
  List.find?_isSome.2 ⟨cell, hcell, decide_eq_true rfl⟩

theorem clampOffset_inBounds (hwidth : 12 ≤ fb.width) (hheight : 19 ≤ fb.height) (x y : ℕ) :
    InBounds fb (clampOffset fb x y) := by
  have hw := fb.width_lt
  have hh := fb.height_lt
  have hx : uint32 (fb.width - mousePointerWidth) = fb.width - 11 :=
    uint32_sub (y := 11) (by omega) hw
  have hx' : uint32 (fb.width - mousePointerWidth - 1) = fb.width - 12 := by
    change uint32 (fb.width - (11 : ℕ) - 1) = _
    rw [show (fb.width - (11 : ℕ) - 1 : ℤ) = fb.width - (12 : ℕ) by omega]
    exact uint32_sub hwidth hw
  have hy : uint32 (fb.height - mousePointerHeight) = fb.height - 18 :=
    uint32_sub (y := 18) (by omega) hh
  have hy' : uint32 (fb.height - mousePointerHeight - 1) = fb.height - 19 := by
    change uint32 (fb.height - (18 : ℕ) - 1) = _
    rw [show (fb.height - (18 : ℕ) - 1 : ℤ) = fb.height - (19 : ℕ) by omega]
    exact uint32_sub hheight hh
  constructor
  · rw [clampOffset, hx, hx']
    dsimp only
    change _ + 11 ≤ _
    split <;> omega
  · rw [clampOffset, hy, hy']
    dsimp only
    change _ + 18 ≤ _
    split <;> omega

theorem InBounds.onScreen {p cell : Point} (h : InBounds fb p) (hcell : cell ∈ pointerCells) :
    fb.OnScreen (cell.add p) := by
  have hx := h.x_le
  have hy := h.y_le
  have hin := mem_cells.1 hcell
  constructor
  · change cell.x + p.x < fb.width
    omega
  · change cell.y + p.y < fb.height
    omega

theorem clearLastMouseCurPos_pixels (h : PointerScreen fb) (s : Graphics) :
    (clearLastMouseCurPos fb s).pixels = cleanImage fb s := by
  funext k
  unfold clearLastMouseCurPos
  rw [foldl_clearLastCell]
  change scatter (pointerPixel fb s.lastMouseCurPos) _ _ s.pixels k = _
  rw [scatter_find (h.pixels_nodup _), cleanImage, cellAt]
  cases pointerCells.find? (pointerPixel fb s.lastMouseCurPos · = k) <;> rfl

/-- The three pieces of state after a call, as functions of the clean image before it. -/
theorem bgDrawCursor_eq (h : PointerScreen fb) (x y : ℕ) (s : Graphics) :
    (bgDrawCursor fb x y s).lastMouseCurPos = clampOffset fb x y ∧
    (bgDrawCursor fb x y s).pixels = scatter (pointerPixel fb (clampOffset fb x y)) pointerColor
      pointerCells (cleanImage fb s) ∧
    (bgDrawCursor fb x y s).mouseLastCursorBuffer = scatter pointerIndex
      (fun cell => some (cleanImage fb s (pointerPixel fb (clampOffset fb x y) cell)))
      pointerCells s.mouseLastCursorBuffer := by
  have hsaved : (clearLastMouseCurPos fb s).mouseLastCursorBuffer = s.mouseLastCursorBuffer := by
    unfold clearLastMouseCurPos
    rw [foldl_clearLastCell]
    rfl
  have hexchange : pointerCells.foldl
      (exchange (pointerPixel fb (clampOffset fb x y)) pointerIndex pointerColor)
        (s.mouseLastCursorBuffer, cleanImage fb s) = _ :=
    foldl_exchange pointerColor (h.pixels_nodup (clampOffset fb x y)) _ _
  unfold bgDrawCursor
  dsimp only
  rw [foldl_drawCursorCell, clearLastMouseCurPos_pixels h, hsaved]
  refine ⟨rfl, ?_, ?_⟩
  · exact congrArg Prod.snd hexchange
  · exact congrArg Prod.fst hexchange

theorem bgDrawCursor_pixels (h : PointerScreen fb) (x y : ℕ) (s : Graphics) :
    (bgDrawCursor fb x y s).pixels = overlaid fb (cleanImage fb s) (clampOffset fb x y) := by
  funext k
  rw [(bgDrawCursor_eq h x y s).2.1, scatter_find (h.pixels_nodup _), overlaid, cellAt]
  cases pointerCells.find? (pointerPixel fb (clampOffset fb x y) · = k) <;> rfl

theorem cleanImage_bgDrawCursor (h : PointerScreen fb) (x y : ℕ) (s : Graphics) :
    cleanImage fb (bgDrawCursor fb x y s) = cleanImage fb s := by
  obtain ⟨hlast, hpixels, hsaved⟩ := bgDrawCursor_eq h x y s
  rw [← clearLastMouseCurPos_pixels h]
  unfold clearLastMouseCurPos
  rw [foldl_clearLastCell]
  change scatter (pointerPixel fb (bgDrawCursor fb x y s).lastMouseCurPos) _ pointerCells _ = _
  rw [hlast, hpixels, hsaved]
  exact restore_exchange pointerColor (h.pixels_nodup _) pointerIndex_nodup _ _

theorem cleanImage_drawCursors (h : PointerScreen fb) (moves : List (ℕ × ℕ)) (s : Graphics) :
    cleanImage fb (drawCursors fb moves s) = cleanImage fb s := by
  induction moves generalizing s with
  | nil => rfl
  | cons move moves ih =>
    change cleanImage fb (drawCursors fb moves (bgDrawCursor fb move.1 move.2 s)) = _
    rw [ih, cleanImage_bgDrawCursor h]

end Images

/-- The moves of the pointer leave the clean image unchanged, and the screen is that image with
    the pointer over it. -/
theorem drawCursors_clean {fb : FrameBuffer} (h : PointerScreen fb) (s : Graphics) :
    (∀ moves, cleanImage fb (drawCursors fb moves s) = cleanImage fb s) ∧
    ∀ moves x y, (drawCursors fb (moves ++ [(x, y)]) s).pixels =
      overlaid fb (cleanImage fb s) (clampOffset fb x y) := by
  constructor
  · exact fun moves => cleanImage_drawCursors h moves s
  · intro moves x y
    unfold drawCursors
    rw [List.foldl_append]
    change (bgDrawCursor fb x y (drawCursors fb moves s)).pixels = _
    rw [bgDrawCursor_pixels h, cleanImage_drawCursors h]

def tinyScreen : FrameBuffer := ⟨912, 12, 19, 12, by decide, by decide⟩

theorem tinyScreen_pointerScreen : PointerScreen tinyScreen := ⟨le_rfl, le_rfl, le_rfl⟩

theorem drawCursors_clean_tiny :
    (∀ moves, cleanImage tinyScreen (drawCursors tinyScreen moves (initialGraphics fun _ => 7)) =
      cleanImage tinyScreen (initialGraphics fun _ => 7)) ∧
    ∀ moves x y, (drawCursors tinyScreen (moves ++ [(x, y)]) (initialGraphics fun _ => 7)).pixels =
      overlaid tinyScreen (cleanImage tinyScreen (initialGraphics fun _ => 7))
        (clampOffset tinyScreen x y) :=
  drawCursors_clean tinyScreen_pointerScreen _

end Rizzos.MouseCursor
