import Rizzos.BasicGraphics
import Rizzos.StepRuns

set_option autoImplicit false

/-! The pixels that the console draws, against the bounds of the screen. -/
namespace Rizzos.ConsoleBounds
open ByteMemory BootFiles CInt BasicGraphics StepRuns

inductive ConsoleOp where
  | putChar (chr : Byte)
  | nextLine
  | putTab
  | clearChar
  | resetCursor
deriving DecidableEq, Repr

def consoleStep (fb : FrameBuffer) (font : Psf1Font) (s : Graphics) : ConsoleOp → Graphics
  | .putChar chr => bgPutChar fb font chr s
  | .nextLine => bgNextLine fb s
  | .putTab => bgPutTab fb s
  | .clearChar => bgClearChar fb s
  | .resetCursor => bgResetCursor s

def consoleRun (fb : FrameBuffer) (font : Psf1Font) (ops : List ConsoleOp) (s : Graphics) :
    Graphics :=
  ops.foldl (consoleStep fb font) s

structure ConsoleScreen (fb : FrameBuffer) : Prop where
  width_le : 16 ≤ fb.width
  height_le : 32 ≤ fb.height
  line_le : fb.width ≤ fb.pixelPerScanLine

/-- The pixels of the whole buffer are on the screen. -/
def FillFits (fb : FrameBuffer) : Prop :=
  ∀ i < (fb.bufferSize + 3) / 4, fb.OnScreen (fb.pointAt i)

/-- The line at `y` does not fit the screen, and the screen is cleared for it. -/
def Full (fb : FrameBuffer) (y : ℕ) : Prop := fb.height < y + 16

instance (fb : FrameBuffer) (y : ℕ) : Decidable (Full fb y) :=
  inferInstanceAs (Decidable (fb.height < y + 16))

/-- What an operation needs in order to stay on the screen: no set bit of the glyph lies
    behind the right edge, and if the screen is cleared, all of the buffer is on it. -/
def StepFits (fb : FrameBuffer) (font : Psf1Font) (s : Graphics) : ConsoleOp → Prop
  | .putChar chr =>
      (∀ cell ∈ cells 8 16, glyphBit font chr cell → s.cursorPosition.x + cell.x < fb.width) ∧
      (fb.width < s.cursorPosition.x + 8 → Full fb (s.cursorPosition.y + 16) → FillFits fb)
  | .nextLine => Full fb (s.cursorPosition.y + 16) → FillFits fb
  | .putTab => fb.width < s.cursorPosition.x + 32 → Full fb (s.cursorPosition.y + 16) → FillFits fb
  | .clearChar => True
  | .resetCursor => True

def RunFits (fb : FrameBuffer) (font : Psf1Font) : Graphics → List ConsoleOp → Prop
  | _, [] => True
  | s, op :: ops => StepFits fb font s op ∧ RunFits fb font (consoleStep fb font s op) ops

def OnScreenSoFar (fb : FrameBuffer) (s : Graphics) : Prop := ∀ p ∈ s.touched, fb.OnScreen p

/-- Between two operations the line of the cursor fits the screen, but the cell need not. -/
structure CursorInside (fb : FrameBuffer) (s : Graphics) : Prop where
  x_le : s.cursorPosition.x ≤ fb.width
  y_le : s.cursorPosition.y + 16 ≤ fb.height

section Steps
variable {fb : FrameBuffer} {font : Psf1Font}

theorem full_iff (h : ConsoleScreen fb) (y : ℕ) : y > uint32 (fb.height - 16) ↔ Full fb y := by
  have := h.height_le
  have := fb.height_lt
  have hsub : uint32 (fb.height - 16) = fb.height - 16 :=
    uint32_sub (y := 16) (by omega) fb.height_lt
  unfold Full
  omega

theorem onScreenSoFar_paint {ι : Type} (position : ι → Point) (value : ι → Option Color)
    (l : List ι) (s : Graphics) : OnScreenSoFar fb (paint fb position value l s) ↔
      (∀ i ∈ l, (value i).isSome → fb.OnScreen (position i)) ∧ OnScreenSoFar fb s := by
  unfold OnScreenSoFar
  change (∀ p ∈ drawnPoints position value l ++ s.touched, _) ↔ _
  rw [List.forall_mem_append]
  apply and_congr_left'
  constructor
  · intro h i hi hsome
    exact h _ (mem_drawnPoints.2 ⟨i, hi, hsome, rfl⟩)
  · intro h p hp
    obtain ⟨i, hi, hsome, heq⟩ := mem_drawnPoints.1 hp
    rw [heq]
    exact h i hi hsome

theorem onScreenSoFar_clearBuffer (s : Graphics) :
    OnScreenSoFar fb (clearBuffer fb s) ↔ FillFits fb ∧ OnScreenSoFar fb s := by
  change OnScreenSoFar fb (bgClearBg fb s) ↔ _
  rw [bgClearBg_eq, onScreenSoFar_paint]
  simp [FillFits]

theorem onScreenSoFar_clearIfFull (h : ConsoleScreen fb) (s : Graphics) :
    OnScreenSoFar fb (clearIfFull fb s) ↔
      (Full fb s.cursorPosition.y → FillFits fb) ∧ OnScreenSoFar fb s := by
  unfold clearIfFull
  rw [if_congr (full_iff h _) rfl rfl]
  split
  · rename_i hfull
    rw [onScreenSoFar_clearBuffer, forall_prop_of_true hfull]
  · rename_i hfull
    rw [forall_prop_of_false hfull, true_and]

theorem cursorInside_default (h : ConsoleScreen fb) {s : Graphics}
    (hcursor : s.cursorPosition = ⟨defaultCurX, defaultCurY⟩) : CursorInside fb s := by
  have hwidth := h.width_le
  constructor
  · rw [hcursor]
    change 8 ≤ fb.width
    omega
  · rw [hcursor]
    exact h.height_le

theorem clearIfFull_inside (h : ConsoleScreen fb) {s : Graphics}
    (hx : s.cursorPosition.x ≤ fb.width) : CursorInside fb (clearIfFull fb s) := by
  unfold clearIfFull
  rw [if_congr (full_iff h _) rfl rfl]
  split
  · exact cursorInside_default h rfl
  · rename_i hfull
    exact ⟨hx, Nat.le_of_not_lt hfull⟩

theorem bgNextLine_inside (h : ConsoleScreen fb) (s : Graphics) :
    CursorInside fb (bgNextLine fb s) := by
  have hwidth := h.width_le
  apply clearIfFull_inside h
  change 8 ≤ fb.width
  omega

theorem bgPutChar_inside (h : ConsoleScreen fb) (chr : Byte) (s : Graphics) :
    CursorInside fb (bgPutChar fb font chr s) := by
  have hwidth := h.width_le
  apply clearIfFull_inside h
  dsimp only
  split
  · change 8 ≤ fb.width
    omega
  · exact Nat.le_of_not_lt ‹_›

theorem bgPutTab_inside (h : ConsoleScreen fb) {s : Graphics} (hs : CursorInside fb s) :
    CursorInside fb (bgPutTab fb s) := by
  unfold bgPutTab
  dsimp only
  split
  · exact bgNextLine_inside h _
  · exact ⟨Nat.le_of_not_lt ‹_›, hs.y_le⟩

theorem bgClearChar_inside {s : Graphics} (hs : CursorInside fb s) :
    CursorInside fb (bgClearChar fb s) := by
  have hx := hs.x_le
  unfold bgClearChar
  split
  · rw [foldl_clearCharCell]
    refine ⟨?_, hs.y_le⟩
    change s.cursorPosition.x - 8 ≤ fb.width
    omega
  · exact hs

theorem consoleStep_inside (h : ConsoleScreen fb) {s : Graphics} (hs : CursorInside fb s)
    (op : ConsoleOp) : CursorInside fb (consoleStep fb font s op) := by
  cases op with
  | putChar chr => exact bgPutChar_inside h chr s
  | nextLine => exact bgNextLine_inside h s
  | putTab => exact bgPutTab_inside h hs
  | clearChar => exact bgClearChar_inside hs
  | resetCursor => exact cursorInside_default h rfl

theorem bgNextLine_onScreen (h : ConsoleScreen fb) (s : Graphics) :
    OnScreenSoFar fb (bgNextLine fb s) ↔
      (Full fb (s.cursorPosition.y + 16) → FillFits fb) ∧ OnScreenSoFar fb s :=
  onScreenSoFar_clearIfFull h _

theorem bgPutChar_onScreen (h : ConsoleScreen fb) {s : Graphics} (hs : CursorInside fb s)
    (chr : Byte) : OnScreenSoFar fb (bgPutChar fb font chr s) ↔
      StepFits fb font s (.putChar chr) ∧ OnScreenSoFar fb s := by
  have hy := hs.y_le
  have hcells : (∀ cell ∈ cells 8 16, (glyphColor font chr s.color cell).isSome →
      fb.OnScreen (s.cursorPosition.add cell)) ↔
      ∀ cell ∈ cells 8 16, glyphBit font chr cell → s.cursorPosition.x + cell.x < fb.width := by
    apply forall₂_congr
    intro cell hcell
    have hrow := (mem_cells.1 hcell).2
    rw [glyphColor, show (if glyphBit font chr cell then some s.color else none).isSome =
      glyphBit font chr cell by cases glyphBit font chr cell <;> rfl]
    apply imp_congr_right
    intro _
    change _ ∧ s.cursorPosition.y + cell.y < fb.height ↔ _
    exact and_iff_left (by omega)
  have hline : (Full fb (if s.cursorPosition.x + 8 > fb.width then
      (⟨8, s.cursorPosition.y + 16⟩ : Point)
      else ⟨s.cursorPosition.x + 8, s.cursorPosition.y⟩).y → FillFits fb) ↔
      (fb.width < s.cursorPosition.x + 8 → Full fb (s.cursorPosition.y + 16) → FillFits fb) := by
    split
    · rename_i hwrap
      exact ⟨fun hfill _ => hfill, fun hfill => hfill hwrap⟩
    · rename_i hwrap
      have hfits : ¬ Full fb s.cursorPosition.y := Nat.not_lt.2 hy
      exact iff_of_true (fun hfull => absurd hfull hfits) (fun hgt => absurd hgt hwrap)
  unfold bgPutChar
  rw [foldl_putCharCell]
  dsimp only
  rw [onScreenSoFar_clearIfFull h]
  change (Full fb (if s.cursorPosition.x + 8 > fb.width then
      (⟨8, s.cursorPosition.y + 16⟩ : Point)
      else ⟨s.cursorPosition.x + 8, s.cursorPosition.y⟩).y → FillFits fb) ∧
    OnScreenSoFar fb
      (paint fb s.cursorPosition.add (glyphColor font chr s.color) (cells 8 16) s) ↔ _
  rw [hline, onScreenSoFar_paint, hcells, StepFits]
  exact and_left_comm.trans and_assoc.symm

theorem bgPutTab_onScreen (h : ConsoleScreen fb) {s : Graphics} :
    OnScreenSoFar fb (bgPutTab fb s) ↔ StepFits fb font s .putTab ∧ OnScreenSoFar fb s := by
  unfold bgPutTab
  dsimp only
  split
  · rename_i hwrap
    rw [bgNextLine_onScreen h, StepFits]
    exact and_congr_left' ⟨fun hfill _ => hfill, fun hfill => hfill hwrap⟩
  · rename_i hwrap
    exact (and_iff_right fun hgt => absurd hgt hwrap).symm

theorem bgClearChar_onScreen {s : Graphics} (hs : CursorInside fb s) :
    OnScreenSoFar fb (bgClearChar fb s) ↔ OnScreenSoFar fb s := by
  have hx := hs.x_le
  have hy := hs.y_le
  unfold bgClearChar
  split
  · rename_i hmore
    rw [foldl_clearCharCell, onScreenSoFar_paint]
    apply and_iff_right
    intro cell hcell _
    have hin := mem_cells.1 hcell
    change 8 < s.cursorPosition.x at hmore
    constructor
    · change s.cursorPosition.x - 8 + cell.x < fb.width
      omega
    · change s.cursorPosition.y + cell.y < fb.height
      omega
  · rfl

/-- One operation stays on the screen exactly when what it needs is given. -/
theorem consoleStep_onScreen (h : ConsoleScreen fb) {s : Graphics} (hs : CursorInside fb s)
    (op : ConsoleOp) : OnScreenSoFar fb (consoleStep fb font s op) ↔
      StepFits fb font s op ∧ OnScreenSoFar fb s := by
  cases op with
  | putChar chr => exact bgPutChar_onScreen h hs chr
  | nextLine => exact bgNextLine_onScreen h s
  | putTab => exact bgPutTab_onScreen h
  | clearChar => exact (bgClearChar_onScreen hs).trans (and_iff_right trivial).symm
  | resetCursor => exact (and_iff_right trivial).symm

theorem consoleRun_onScreenSoFar (h : ConsoleScreen fb) (ops : List ConsoleOp) {s : Graphics}
    (hs : CursorInside fb s) : OnScreenSoFar fb (consoleRun fb font ops s) ↔
      RunFits fb font s ops ∧ OnScreenSoFar fb s := by
  have hinv : ∀ s op, CursorInside fb s → CursorInside fb (consoleStep fb font s op) :=
    fun s op hs => consoleStep_inside h hs op
  have hstep : ∀ s op, CursorInside fb s → (OnScreenSoFar fb (consoleStep fb font s op) ↔
      StepFits fb font s op ∧ OnScreenSoFar fb s) := fun s op hs => consoleStep_onScreen h hs op
  exact @foldl_good_iff _ _ _ _ _ _ (RunFits fb font) (fun _ => trivial) (fun _ _ _ => Iff.rfl)
    hinv hstep ops s hs

theorem pixel_lt (h : ConsoleScreen fb) {p : Point} (hp : fb.OnScreen p) :
    fb.pixel p < fb.pixelPerScanLine * fb.height := by
  have hline := h.line_le
  have hx := hp.1
  calc fb.pixel p < fb.pixelPerScanLine + p.y * fb.pixelPerScanLine := by
        unfold FrameBuffer.pixel
        omega
    _ = fb.pixelPerScanLine * (p.y + 1) := by ring
    _ ≤ fb.pixelPerScanLine * fb.height := Nat.mul_le_mul_left _ hp.2

end Steps

/-- The drawing of a run is on the screen, and so in the pixels of its lines. -/
def DrawsOnScreen (fb : FrameBuffer) (s : Graphics) : Prop :=
  ∀ p ∈ s.touched, fb.OnScreen p ∧ fb.pixel p < fb.pixelPerScanLine * fb.height

/-- The cell at the cursor is checked after it is drawn, so a run stays on the screen when no
    glyph has a set bit behind the right edge. -/
theorem consoleRun_drawsOnScreen_iff {fb : FrameBuffer} (font : Psf1Font) (h : ConsoleScreen fb)
    (ops : List ConsoleOp) {s : Graphics} (hcursor : s.cursorPosition = ⟨defaultCurX, defaultCurY⟩)
    (htouched : s.touched = []) :
    DrawsOnScreen fb (consoleRun fb font ops s) ↔ RunFits fb font s ops := by
  have hs : CursorInside fb s := cursorInside_default h hcursor
  have hnone : OnScreenSoFar fb s := by
    intro p hp
    rw [htouched] at hp
    exact absurd hp List.not_mem_nil
  have hrun : OnScreenSoFar fb (consoleRun fb font ops s) ↔
      RunFits fb font s ops ∧ OnScreenSoFar fb s := consoleRun_onScreenSoFar h ops hs
  rw [and_iff_left hnone] at hrun
  rw [← hrun]
  exact forall₂_congr fun p _ => and_iff_left_of_imp (pixel_lt h)

def smallScreen : FrameBuffer := ⟨2048, 16, 32, 16, by decide, by decide⟩

theorem smallScreen_consoleScreen : ConsoleScreen smallScreen :=
  ⟨by decide, by decide, by decide⟩

def blockFont : Psf1Font := ⟨⟨psf1Magic0, psf1Magic1, 0, 16⟩, fun _ => 0xff#8⟩

theorem consoleRun_drawsOnScreen_iff_small :
    DrawsOnScreen smallScreen (consoleRun smallScreen blockFont [.putChar 65, .nextLine]
        (initialGraphics fun _ => 0)) ↔
      RunFits smallScreen blockFont (initialGraphics fun _ => 0) [.putChar 65, .nextLine] :=
  consoleRun_drawsOnScreen_iff blockFont smallScreen_consoleScreen _ rfl rfl

/-- The second letter of the first line is drawn behind the right edge. -/
theorem not_drawsOnScreen_small : ConsoleScreen smallScreen ∧
    ¬ DrawsOnScreen smallScreen (consoleRun smallScreen blockFont [.putChar 65, .putChar 65]
      (initialGraphics fun _ => 0)) := by
  refine ⟨smallScreen_consoleScreen, fun hdraws => ?_⟩
  have hdrawn : (⟨16, 31⟩ : Point) ∈ (consoleRun smallScreen blockFont
      [.putChar 65, .putChar 65] (initialGraphics fun _ => 0)).touched := by decide +kernel
  exact absurd (hdraws _ hdrawn).1.1 (by decide)

end Rizzos.ConsoleBounds
