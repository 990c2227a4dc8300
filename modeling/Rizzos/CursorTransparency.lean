import Rizzos.ConsoleBounds
import Rizzos.MouseCursor

set_option autoImplicit false

/-! The console draws without regard to the mouse pointer. What it draws under the pointer is
lost when the saved pixels are put back. -/
namespace Rizzos.CursorTransparency
open BootFiles ScatteredWrites StepRuns BasicGraphics ConsoleBounds MouseCursor

/-- The state `s'` is `s` with `top` drawn over it and the cursor at `p`. -/
structure Effect (top : ℕ → Option Color) (p : Point) (s s' : Graphics) : Prop where
  pixels : s'.pixels = overlay top s.pixels
  cursorPosition : s'.cursorPosition = p
  color : s'.color = s.color
  bgColor : s'.bgColor = s.bgColor
  lastMouseCurPos : s'.lastMouseCurPos = s.lastMouseCurPos
  saved : s'.mouseLastCursorBuffer = s.mouseLastCursorBuffer

/-- What is drawn depends on the cursor and the colours only. -/
def DrawsAlike (f : Graphics → Graphics) : Prop :=
  ∀ p color bgColor, ∃ top p', ∀ s : Graphics, s.cursorPosition = p → s.color = color →
    s.bgColor = bgColor → Effect top p' s (f s)

section Alike
variable {f g : Graphics → Graphics}

theorem DrawsAlike.comp (hf : DrawsAlike f) (hg : DrawsAlike g) : DrawsAlike fun s => g (f s) := by
  intro p color bgColor
  obtain ⟨top, p', hfirst⟩ := hf p color bgColor
  obtain ⟨top', p'', hsecond⟩ := hg p' color bgColor
  refine ⟨stack top' top, p'', fun s hp hcolor hbg => ?_⟩
  have h := hfirst s hp hcolor hbg
  have h' := hsecond (f s) h.cursorPosition (h.color.trans hcolor) (h.bgColor.trans hbg)
  refine ⟨?_, h'.cursorPosition, h'.color.trans h.color, h'.bgColor.trans h.bgColor,
    h'.lastMouseCurPos.trans h.lastMouseCurPos, h'.saved.trans h.saved⟩
  rw [h'.pixels, h.pixels, overlay_stack]

theorem drawsAlike_move (move : Point → Point) :
    DrawsAlike fun s => { s with cursorPosition := move s.cursorPosition } := by
  intro p color bgColor
  refine ⟨fun _ => none, move p, fun s hp _ _ => ?_⟩
  exact ⟨rfl, congrArg move hp, rfl, rfl, rfl, rfl⟩

theorem DrawsAlike.ite (hf : DrawsAlike f) (hg : DrawsAlike g) (c : Point → Prop)
    [DecidablePred c] : DrawsAlike fun s => if c s.cursorPosition then f s else g s := by
  intro p color bgColor
  by_cases hc : c p
  · obtain ⟨top, p', h⟩ := hf p color bgColor
    refine ⟨top, p', fun s hp hcolor hbg => ?_⟩
    dsimp only
    rw [if_pos (hp.symm ▸ hc)]
    exact h s hp hcolor hbg
  · obtain ⟨top, p', h⟩ := hg p color bgColor
    refine ⟨top, p', fun s hp hcolor hbg => ?_⟩
    dsimp only
    rw [if_neg (hp.symm ▸ hc)]
    exact h s hp hcolor hbg

theorem DrawsAlike.congr (hf : DrawsAlike f) (h : ∀ s, g s = f s) : DrawsAlike g := by
  rwa [show g = f from funext h]

theorem drawsAlike_paint {ι : Type} (fb : FrameBuffer) (position : Point → ι → Point)
    (value : Color → Color → ι → Option Color) (read : Graphics → List ℤ) (l : List ι) :
    DrawsAlike fun s => { paint fb (position s.cursorPosition) (value s.color s.bgColor) l s with
      fontRead := read s } := by
  intro p color bgColor
  obtain ⟨top, htop⟩ := scatter_overlay (fun i => fb.pixel (position p i)) (value color bgColor) l
  refine ⟨top, p, fun s hp hcolor hbg => ⟨?_, hp, rfl, rfl, rfl, rfl⟩⟩
  change scatter (fun i => fb.pixel (position s.cursorPosition i)) (value s.color s.bgColor) l
    s.pixels = _
  rw [hp, hcolor, hbg]
  exact htop s.pixels

end Alike

section Operations
variable (fb : FrameBuffer) (font : Psf1Font)

theorem bgClearBg_drawsAlike : DrawsAlike (bgClearBg fb) :=
  (drawsAlike_paint fb (fun _ => fb.pointAt) (fun _ bgColor _ => some bgColor)
    Graphics.fontRead _).congr bgClearBg_eq

theorem clearIfFull_drawsAlike : DrawsAlike (clearIfFull fb) := by
  have hclear : DrawsAlike (clearBuffer fb) :=
    (bgClearBg_drawsAlike fb).comp (drawsAlike_move fun _ => ⟨defaultCurX, defaultCurY⟩)
  exact hclear.ite (drawsAlike_move id) fun p => p.y > CInt.uint32 (fb.height - 16)

theorem bgNextLine_drawsAlike : DrawsAlike (bgNextLine fb) :=
  (drawsAlike_move fun p => ⟨defaultCurX, p.y + defaultCurY⟩).comp (clearIfFull_drawsAlike fb)

theorem consoleStep_drawsAlike (op : ConsoleOp) : DrawsAlike (consoleStep fb font · op) := by
  cases op with
  | putChar chr =>
    have hglyph : DrawsAlike fun s => (cells 8 16).foldl (putCharCell fb font chr) s :=
      (drawsAlike_paint fb Point.add (fun color _ => glyphColor font chr color) _
        (cells 8 16)).congr (foldl_putCharCell chr _)
    have hmove := drawsAlike_move fun p => if p.x + defaultCurX > fb.width then
      ⟨defaultCurX, p.y + defaultCurY⟩ else ⟨p.x + defaultCurX, p.y⟩
    exact (hglyph.comp hmove).comp (clearIfFull_drawsAlike fb)
  | nextLine => exact bgNextLine_drawsAlike fb
  | putTab =>
    have hmove := drawsAlike_move fun p => ⟨p.x + defaultCurX * 4, p.y⟩
    exact hmove.comp ((bgNextLine_drawsAlike fb).ite (drawsAlike_move id) fun p => p.x > fb.width)
  | clearChar =>
    have hblank : DrawsAlike fun s => (cells 8 16).foldl (clearCharCell fb) s :=
      (drawsAlike_paint fb Point.add (fun _ bgColor _ => some bgColor) Graphics.fontRead
        (cells 8 16)).congr (foldl_clearCharCell _)
    have hmove := drawsAlike_move fun p => ⟨p.x - defaultCurX, p.y⟩
    exact (hmove.comp hblank).ite (drawsAlike_move id) fun p => p.x > defaultCurX
  | resetCursor => exact drawsAlike_move fun _ => ⟨defaultCurX, defaultCurY⟩

/-- A console operation, or a move of the pointer. -/
inductive ScreenOp where
  | console (op : ConsoleOp)
  | drawCursor (x y : ℕ)

def screenStep (s : Graphics) : ScreenOp → Graphics
  | .console op => consoleStep fb font s op
  | .drawCursor x y => bgDrawCursor fb x y s

def screenRun (ops : List ScreenOp) (s : Graphics) : Graphics := ops.foldl (screenStep fb font) s

def consoleOps : List ScreenOp → List ConsoleOp
  | [] => []
  | .console op :: ops => op :: consoleOps ops
  | .drawCursor _ _ :: ops => consoleOps ops

/-- With the saved pixels put back, the screen is as the console alone would have left it. -/
def Transparent (s : Graphics) (ops : List ScreenOp) : Prop :=
  cleanImage fb (screenRun fb font ops s) = (consoleRun fb font (consoleOps ops) s).pixels

/-- A console operation changes no pixel under the pointer at `p` of the console's own screen. -/
def KeepsUnder (p : Point) (t : Graphics) (op : ConsoleOp) : Prop :=
  ∀ cell ∈ pointerCells, (consoleStep fb font t op).pixels (pointerPixel fb p cell) =
    t.pixels (pointerPixel fb p cell)

/-- The pointer, at `p` to begin with, is never drawn under. -/
def RunKeepsUnder : Point → Graphics → List ScreenOp → Prop
  | _, _, [] => True
  | p, t, .console op :: ops =>
      KeepsUnder fb font p t op ∧ RunKeepsUnder p (consoleStep fb font t op) ops
  | _, t, .drawCursor x y :: ops => RunKeepsUnder (clampOffset fb x y) t ops

/-- The pixels at the first position are those of the saved buffer. -/
def SavedAtStart (s : Graphics) : Prop :=
  ∀ cell ∈ pointerCells, s.pixels (pointerPixel fb s.lastMouseCurPos cell) =
    s.mouseLastCursorBuffer (pointerIndex cell)

end Operations

section Simulation
variable {fb : FrameBuffer} {font : Psf1Font}

/-- The screen with the pointer, and the console's own. -/
structure Related (fb : FrameBuffer) (s t : Graphics) : Prop where
  clean : cleanImage fb s = t.pixels
  cursorPosition : s.cursorPosition = t.cursorPosition
  color : s.color = t.color
  bgColor : s.bgColor = t.bgColor

theorem Related.effects {s t : Graphics} (h : Related fb s t) (font : Psf1Font) (op : ConsoleOp) :
    ∃ top p', Effect top p' s (consoleStep fb font s op) ∧
      Effect top p' t (consoleStep fb font t op) := by
  obtain ⟨top, p', heffect⟩ :=
    consoleStep_drawsAlike fb font op t.cursorPosition t.color t.bgColor
  exact ⟨top, p', heffect s h.cursorPosition h.color h.bgColor, heffect t rfl rfl rfl⟩

theorem cleanImage_under {s s' : Graphics} (hlast : s'.lastMouseCurPos = s.lastMouseCurPos)
    (hsaved : s'.mouseLastCursorBuffer = s.mouseLastCursorBuffer) {cell : Point}
    (hcell : cell ∈ pointerCells) :
    cleanImage fb s' (pointerPixel fb s.lastMouseCurPos cell) =
      cleanImage fb s (pointerPixel fb s.lastMouseCurPos cell) := by
  have hsome : (cellAt fb s.lastMouseCurPos
      (pointerPixel fb s.lastMouseCurPos cell)).isSome := cellAt_isSome hcell
  obtain ⟨found, hfound⟩ := Option.isSome_iff_exists.1 hsome
  rw [cleanImage, cleanImage, hlast, hfound, hsaved]

/-- The same operation on both screens keeps them related when it keeps what is under the
    pointer. -/
theorem clean_consoleStep_iff {s t : Graphics} (h : Related fb s t) (op : ConsoleOp) :
    cleanImage fb (consoleStep fb font s op) = (consoleStep fb font t op).pixels ↔
      KeepsUnder fb font s.lastMouseCurPos t op := by
  obtain ⟨top, p', hs, ht⟩ := h.effects font op
  constructor
  · intro hclean cell hcell
    rw [← hclean, cleanImage_under hs.lastMouseCurPos hs.saved hcell, h.clean]
  · intro hkeeps
    funext k
    cases hfound : cellAt fb s.lastMouseCurPos k with
    | some cell =>
      obtain ⟨hcell, hk⟩ := cellAt_some hfound
      rw [hk, cleanImage_under hs.lastMouseCurPos hs.saved hcell, h.clean, hkeeps cell hcell]
    | none =>
      have hpixel : s.pixels k = t.pixels k := by
        rw [← h.clean, cleanImage, hfound]
      rw [cleanImage, hs.lastMouseCurPos, hfound, ht.pixels, hs.pixels, overlay, overlay, hpixel]

theorem related_consoleStep {s t : Graphics} (h : Related fb s t) {op : ConsoleOp}
    (hkeeps : KeepsUnder fb font s.lastMouseCurPos t op) :
    Related fb (consoleStep fb font s op) (consoleStep fb font t op) := by
  obtain ⟨top, p', hs, ht⟩ := h.effects font op
  exact ⟨(clean_consoleStep_iff h op).2 hkeeps, hs.cursorPosition.trans ht.cursorPosition.symm,
    hs.color.trans (h.color.trans ht.color.symm),
    hs.bgColor.trans (h.bgColor.trans ht.bgColor.symm)⟩

theorem consoleStep_lastMouseCurPos (s : Graphics) (op : ConsoleOp) :
    (consoleStep fb font s op).lastMouseCurPos = s.lastMouseCurPos := by
  obtain ⟨top, p', heffect⟩ :=
    consoleStep_drawsAlike fb font op s.cursorPosition s.color s.bgColor
  exact (heffect s rfl rfl rfl).lastMouseCurPos

theorem bgDrawCursor_console (fb : FrameBuffer) (x y : ℕ) (s : Graphics) :
    (bgDrawCursor fb x y s).cursorPosition = s.cursorPosition ∧
    (bgDrawCursor fb x y s).color = s.color ∧ (bgDrawCursor fb x y s).bgColor = s.bgColor := by
  unfold bgDrawCursor clearLastMouseCurPos
  dsimp only
  rw [foldl_clearLastCell, foldl_drawCursorCell]
  exact ⟨rfl, rfl, rfl⟩

theorem related_bgDrawCursor (hscreen : PointerScreen fb) {s t : Graphics} (h : Related fb s t)
    (x y : ℕ) : Related fb (bgDrawCursor fb x y s) t := by
  obtain ⟨hcursor, hcolor, hbg⟩ := bgDrawCursor_console fb x y s
  exact ⟨(cleanImage_bgDrawCursor hscreen x y s).trans h.clean, hcursor.trans h.cursorPosition,
    hcolor.trans h.color, hbg.trans h.bgColor⟩

/-- The two screens of an interleaving that begins with two related ones. -/
theorem prefixes_clean_iff (hscreen : PointerScreen fb) (ops : List ScreenOp) {s t : Graphics}
    (h : Related fb s t) :
    (∀ before, before <+: ops → cleanImage fb (screenRun fb font before s) =
      (consoleRun fb font (consoleOps before) t).pixels) ↔
      RunKeepsUnder fb font s.lastMouseCurPos t ops := by
  induction ops generalizing s t with
  | nil =>
    apply iff_of_true _ trivial
    intro before hbefore
    rw [List.prefix_nil.1 hbefore]
    exact h.clean
  | cons first ops ih =>
    have hcons : (∀ before, before <+: first :: ops → cleanImage fb (screenRun fb font before s) =
        (consoleRun fb font (consoleOps before) t).pixels) ↔
        ∀ before, before <+: ops → cleanImage fb (screenRun fb font (first :: before) s) =
          (consoleRun fb font (consoleOps (first :: before)) t).pixels :=
      forall_prefix_cons.trans (and_iff_right h.clean)
    rw [hcons]
    cases first with
    | console op =>
      rw [RunKeepsUnder]
      constructor
      · intro hall
        have hkeeps := (clean_consoleStep_iff h op).1 (hall [] List.nil_prefix)
        have hrest := ih (related_consoleStep h hkeeps)
        rw [consoleStep_lastMouseCurPos] at hrest
        exact ⟨hkeeps, hrest.1 hall⟩
      · rintro ⟨hkeeps, hrun⟩
        have hrest := ih (related_consoleStep h hkeeps)
        rw [consoleStep_lastMouseCurPos] at hrest
        exact hrest.2 hrun
    | drawCursor x y =>
      have hrest := ih (related_bgDrawCursor hscreen h x y)
      rw [(bgDrawCursor_eq hscreen x y s).1] at hrest
      exact hrest

theorem cleanImage_start_iff (hscreen : PointerScreen fb) (s : Graphics) :
    cleanImage fb s = s.pixels ↔ SavedAtStart fb s := by
  constructor
  · intro hclean cell hcell
    have := congrFun (clearLastMouseCurPos_pixels hscreen s)
      (pointerPixel fb s.lastMouseCurPos cell)
    unfold clearLastMouseCurPos at this
    rw [foldl_clearLastCell] at this
    rw [← hclean, ← this]
    exact scatter_position (hscreen.pixels_nodup _) hcell _
  · intro hsaved
    funext k
    unfold cleanImage
    cases hfound : cellAt fb s.lastMouseCurPos k with
    | some cell =>
      obtain ⟨hcell, rfl⟩ := cellAt_some hfound
      exact (hsaved cell hcell).symm
    | none => rfl

end Simulation

/-- The state after `BG_Init` and `BG_ClearBg`, with the pixels and the background colour as
    they are. -/
def clearedScreen (fb : FrameBuffer) (pixels : ℕ → Color) (bgColor : Color) : Graphics :=
  bgClearBg fb { initialGraphics pixels with bgColor := bgColor }

theorem clearedScreen_black (fb : FrameBuffer) :
    (clearedScreen fb (fun _ => 0) 0).pixels = (fun _ => 0) ∧
    (clearedScreen fb (fun _ => 0) 0).mouseLastCursorBuffer = fun _ => 0 := by
  unfold clearedScreen
  rw [bgClearBg_eq]
  refine ⟨?_, rfl⟩
  apply scatter_self
  intro i _ v hv
  exact (Option.some.inj hv).symm

/-- The pointer is transparent in a run and all that leads up to it when the pixels first
    saved are those on the screen, and the console draws nothing new under the pointer. -/
theorem transparent_prefixes_iff {fb : FrameBuffer} (font : Psf1Font) (h : ConsoleScreen fb)
    (pixels : ℕ → Color) (bgColor : Color) (ops : List ScreenOp) :
    (∀ before, before <+: ops → Transparent fb font (clearedScreen fb pixels bgColor) before) ↔
      SavedAtStart fb (clearedScreen fb pixels bgColor) ∧
      RunKeepsUnder fb font ⟨0, 0⟩ (clearedScreen fb pixels bgColor) ops := by
  have hscreen : PointerScreen fb :=
    ⟨by have := h.width_le; omega, by have := h.height_le; omega, h.line_le⟩
  have hlast : (clearedScreen fb pixels bgColor).lastMouseCurPos = ⟨0, 0⟩ := by
    unfold clearedScreen
    rw [bgClearBg_eq]
    rfl
  generalize clearedScreen fb pixels bgColor = s at hlast ⊢
  rw [← cleanImage_start_iff hscreen, ← hlast]
  constructor
  · intro hall
    have hstart : cleanImage fb s = s.pixels := hall [] List.nil_prefix
    exact ⟨hstart, (prefixes_clean_iff hscreen ops ⟨hstart, rfl, rfl, rfl⟩).1 hall⟩
  · rintro ⟨hstart, hrun⟩
    exact (prefixes_clean_iff hscreen ops ⟨hstart, rfl, rfl, rfl⟩).2 hrun

theorem transparent_prefixes_iff_small :
    (∀ before, before <+: [.drawCursor 3 4, .console .nextLine] →
      Transparent smallScreen blockFont (clearedScreen smallScreen (fun _ => 0) 0) before) ↔
      SavedAtStart smallScreen (clearedScreen smallScreen (fun _ => 0) 0) ∧
      RunKeepsUnder smallScreen blockFont ⟨0, 0⟩ (clearedScreen smallScreen (fun _ => 0) 0)
        [.drawCursor 3 4, .console .nextLine] :=
  transparent_prefixes_iff blockFont smallScreen_consoleScreen _ _ _

theorem smallScreen_pointerScreen : PointerScreen smallScreen := ⟨by decide, by decide, by decide⟩

/-- A letter is written under the pointer, on a black screen. -/
theorem not_transparent_small : ConsoleScreen smallScreen ∧ ¬ Transparent smallScreen blockFont
    (clearedScreen smallScreen (fun _ => 0) 0) [.drawCursor 4 13, .console (.putChar 65)] := by
  refine ⟨smallScreen_consoleScreen, fun htransparent => ?_⟩
  have hdrawn : (consoleStep smallScreen blockFont (clearedScreen smallScreen (fun _ => 0) 0)
      (.putChar 65)).pixels 264 = 0xFFFFFFFF := by decide +kernel
  obtain ⟨hblack, hbuffer⟩ := clearedScreen_black smallScreen
  generalize clearedScreen smallScreen (fun _ => 0) 0 = s at htransparent hdrawn hblack hbuffer
  have hsaved : SavedAtStart smallScreen s := by
    intro cell _
    rw [hblack, hbuffer]
  have hstart : Related smallScreen s s :=
    ⟨(cleanImage_start_iff smallScreen_pointerScreen s).2 hsaved, rfl, rfl, rfl⟩
  have hkeeps := (clean_consoleStep_iff (related_bgDrawCursor smallScreen_pointerScreen hstart
    4 13) (.putChar 65)).1 htransparent
  rw [(bgDrawCursor_eq smallScreen_pointerScreen 4 13 s).1] at hkeeps
  have hunder : (consoleStep smallScreen blockFont s (.putChar 65)).pixels 264 = s.pixels 264 :=
    hkeeps ⟨4, 3⟩ (mem_cells.2 (by decide))
  rw [hdrawn, hblack] at hunder
  exact absurd hunder (by decide)

end Rizzos.CursorTransparency
