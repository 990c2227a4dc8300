import Rizzos.CursorTransparency
import Rizzos.Keyboard
import Rizzos.KernelInterrupts
import Rizzos.MouseMovement

set_option autoImplicit false

/-!
# Runs of interrupts

The timer, the keyboard and the mouse interrupt the kernel in any order. Each handler runs to its
end with interrupts off. The keyboard and the mouse share the screen and nothing else.
-/
namespace Rizzos.KernelEvents
open ByteMemory Memory BootFiles CInt PortAccess InterruptTable InterruptController PageFrameAllocator
open KernelInterrupts BasicGraphics ConsoleBounds MouseCursor CursorTransparency Keyboard PS2Mouse
open MouseMovement StepRuns

inductive Interrupt where
  | timer
  | keyboard (scancode : Byte)
  | mouse (data : Byte)
deriving DecidableEq, Repr

def Interrupt.irq : Interrupt → ℕ
  | .timer => 0
  | .keyboard _ => 1
  | .mouse _ => 12

def Interrupt.data : Interrupt → Byte
  | .timer => 0
  | .keyboard scancode => scancode
  | .mouse data => data

/-- The controllers, the calls of `PIT_Tick`, the screen, and the statics of the keyboard and of
    the mouse. -/
structure Kernel where
  pics : Pics
  ticks : ℕ
  graphics : Graphics
  keyboard : KeyboardState
  mouse : Mouse

def initialKernel (pics : Pics) (graphics : Graphics) : Kernel :=
  ⟨pics, 0, graphics, initialKeyboard graphics, initialMouse graphics⟩

section Handlers
variable (fb : FrameBuffer) (font : Psf1Font) (behind : Byte)

def tick (s : Kernel) : Kernel := { s with ticks := s.ticks + 1 }

def handleKey (s : Kernel) (scancode : Byte) : Kernel :=
  let keyboard := uiHandleKeyboard fb font behind { s.keyboard with graphics := s.graphics } scancode
  { s with keyboard := keyboard, graphics := keyboard.graphics }

def handleMouse (s : Kernel) (data : Byte) : Kernel :=
  let mouse := uiPS2MouseHandle fb { s.mouse with graphics := s.graphics } data
  { s with mouse := mouse, graphics := mouse.graphics }

def acknowledge (t : Trace) (s : Kernel) : Kernel := { s with pics := replay Pics.step s.pics t }

def intPitHandler (s : Kernel) : Kernel := acknowledge (intPicEndMaster []) (tick s)

def intKeyboardIntHandler (scancode : Byte) (s : Kernel) : Kernel :=
  acknowledge (intPicEndMaster []) (handleKey fb font behind s scancode)

def intMouseIntHandler (data : Byte) (s : Kernel) : Kernel :=
  acknowledge (intPicEndSlave []) (handleMouse fb s data)

/-- The handlers of the faults never return. -/
def runHandler (data : Byte) (s : Kernel) : Handler → Option Kernel
  | .pit => some (intPitHandler s)
  | .keyboard => some (intKeyboardIntHandler fb font behind data s)
  | .mouse => some (intMouseIntHandler fb data s)
  | _ => none

def handlerAt (address : Handler → BitVec 64) (idtr : IDTR) (m : Mem) (v : Byte) : Option Handler :=
  handlers.find? fun k => (typeDplP m (descEntry idtr v)).testBit 7 &&
    idtGetOffset (descEntry idtr v) m == address k

/-- An interrupt from its line to the return from its handler. -/
def interruptStep (address : Handler → BitVec 64) (table : IDTR × Mem) (s : Kernel) (i : Interrupt) :
    Option Kernel := do
  let (v, pics) ← s.pics.accept i.irq
  let k ← handlerAt address table.1 table.2 v
  runHandler fb font behind i.data { s with pics := pics } k

def interruptRun (address : Handler → BitVec 64) (table : IDTR × Mem) (is : List Interrupt)
    (s : Kernel) : Option Kernel :=
  is.foldlM (interruptStep fb font behind address table) s

/-- What an interrupt does, but for the controllers. -/
def serve (s : Kernel) : Interrupt → Kernel
  | .timer => tick s
  | .keyboard scancode => handleKey fb font behind s scancode
  | .mouse data => handleMouse fb s data

def serveAll (is : List Interrupt) (s : Kernel) : Kernel := is.foldl (serve fb font behind) s

end Handlers

/-! ### Every interrupt is served and acknowledged -/

section Served
variable {fb : FrameBuffer} {font : Psf1Font} {behind : Byte} {address : Handler → BitVec 64}

theorem handlerAt_leadsTo (hinj : Function.Injective address) {idtr : IDTR} {m : Mem} {v : Byte}
    {k : Handler} (h : LeadsTo idtr m v (address k)) : handlerAt address idtr m v = some k := by
  have htype : idtTdplpInterruptGate.testBit 7 = true := by decide
  rw [handlerAt, h.type_eq, h.offset_eq, htype]
  cases k <;> simp [handlers, hinj.eq_iff]

/-- The vector of a line leads to its function. -/
theorem interruptStep_handler (hinj : Function.Injective address) (t : Machine Pfa) {s : Kernel}
    {i : Interrupt} {v : Byte} {p : Pics} {k : Handler} (haccept : s.pics.accept i.irq = some (v, p))
    (hlast : lastInstalled (installs address) v = some (address k)) :
    interruptStep fb font behind address (startTable address t) s i =
      runHandler fb font behind i.data { s with pics := p } k := by
  have hhandler := handlerAt_leadsTo hinj (startTable_leadsTo (s := t) hlast)
  rw [interruptStep, haccept]
  simp only [Option.bind_eq_bind, Option.bind_some, hhandler]

/-- Its acknowledgment ends all that the interrupt has put in service. -/
theorem interruptStep_started (hinj : Function.Injective address) (t : Machine Pfa) {s : Kernel}
    (hpics : s.pics = startedPics) (i : Interrupt) :
    interruptStep fb font behind address (startTable address t) s i =
      some (serve fb font behind s i) := by
  have hmaster : ∀ lines ∈ [1#8, 2#8],
      replay Pics.step (serving lines 0) (intPicEndMaster []) = startedPics := by decide
  have hslave : replay Pics.step (serving 4 16) (intPicEndSlave []) = startedPics := by decide
  cases i with
  | timer =>
    have haccept : s.pics.accept 0 = some (0x20, serving 1 0) := by rw [hpics, startedPics_accept]; rfl
    rw [interruptStep_handler hinj t (k := .pit) haccept rfl]
    change some { tick s with pics := replay Pics.step (serving 1 0) (intPicEndMaster []) } = _
    rw [hmaster 1 (by decide), ← hpics]
    rfl
  | keyboard scancode =>
    have haccept : s.pics.accept 1 = some (0x21, serving 2 0) := by rw [hpics, startedPics_accept]; rfl
    rw [interruptStep_handler hinj t (i := .keyboard scancode) (k := .keyboard) haccept rfl]
    change some { handleKey fb font behind s scancode with
      pics := replay Pics.step (serving 2 0) (intPicEndMaster []) } = _
    rw [hmaster 2 (by decide), ← hpics]
    rfl
  | mouse data =>
    have haccept : s.pics.accept 12 = some (0x2C, serving 4 16) := by
      rw [hpics, startedPics_accept]; rfl
    rw [interruptStep_handler hinj t (i := .mouse data) (k := .mouse) haccept rfl]
    change some { handleMouse fb s data with
      pics := replay Pics.step (serving 4 16) (intPicEndSlave []) } = _
    rw [hslave, ← hpics]
    rfl

theorem serve_pics (s : Kernel) (i : Interrupt) : (serve fb font behind s i).pics = s.pics := by
  cases i <;> rfl

theorem interruptRun_started (hinj : Function.Injective address) (t : Machine Pfa)
    (is : List Interrupt) {s : Kernel} (hpics : s.pics = startedPics) :
    interruptRun fb font behind address (startTable address t) is s =
      some (serveAll fb font behind is s) ∧ (serveAll fb font behind is s).pics = startedPics := by
  induction is generalizing s with
  | nil => exact ⟨rfl, hpics⟩
  | cons i is ih =>
    rw [interruptRun, List.foldlM_cons, interruptStep_started hinj t hpics i]
    exact ih ((serve_pics s i).trans hpics)

/-- From the controllers that `_start` set up, whatever they were before: every interrupt of any
    sequence reaches its own function, and its acknowledgment leaves nothing in service, so that
    no line is closed to the next one. -/
theorem interruptRun_served (hinj : Function.Injective address) (t : Machine Pfa) (p : Pics)
    (dev : Device) (a2 : Byte) (ports : Trace) (is : List Interrupt) {s : Kernel}
    (hpics : s.pics = replay Pics.step p (startPorts dev a2 ports)) :
    interruptRun fb font behind address (startTable address t) is s =
      some (serveAll fb font behind is s) ∧ (serveAll fb font behind is s).pics = s.pics := by
  rw [replay_startPorts] at hpics
  rw [hpics]
  exact interruptRun_started hinj t is hpics

def linked : Handler → BitVec 64
  | .pageFault => 0x1000
  | .doubleFault => 0x1040
  | .gpFault => 0x1080
  | .keyboard => 0x10C0
  | .mouse => 0x1120
  | .pit => 0x1180

theorem linked_injective : Function.Injective linked := by
  intro k l h
  cases k <;> cases l <;> first | rfl | exact absurd h (by decide)

def bootKernel : Kernel :=
  initialKernel (replay Pics.step startedPics (startPorts (fun _ _ => 0xFF) 0x5A []))
    (initialGraphics fun _ => 0)

/-- A key, a tick and a byte of the mouse. -/
theorem interruptRun_served_three :
    interruptRun smallScreen blockFont 0 linked (startTable linked dirtyFrame)
        [.keyboard 0x1E, .timer, .mouse 0x08] bootKernel =
      some (serveAll smallScreen blockFont 0 [.keyboard 0x1E, .timer, .mouse 0x08] bootKernel) ∧
    (serveAll smallScreen blockFont 0 [.keyboard 0x1E, .timer, .mouse 0x08] bootKernel).pics =
      bootKernel.pics := by
  have hpics : bootKernel.pics =
      replay Pics.step startedPics (startPorts (fun _ _ => 0xFF) 0x5A []) := by
    simp only [bootKernel, initialKernel]
  exact interruptRun_served linked_injective dirtyFrame startedPics (fun _ _ => 0xFF) 0x5A []
    [.keyboard 0x1E, .timer, .mouse 0x08] hpics

end Served

/-! ### The keyboard and the mouse apart -/

section Parts
variable (fb : FrameBuffer) (font : Psf1Font) (behind : Byte)

def scancodes : List Interrupt → List Byte
  | [] => []
  | .keyboard scancode :: is => scancode :: scancodes is
  | _ :: is => scancodes is

def mouseBytes : List Interrupt → List Byte
  | [] => []
  | .mouse data :: is => data :: mouseBytes is
  | _ :: is => mouseBytes is

def ticks : List Interrupt → ℕ
  | [] => 0
  | .timer :: is => ticks is + 1
  | _ :: is => ticks is

def keyOp (shift : Bool) (scancode : Byte) : Option ConsoleOp :=
  if scancode = uiKbEnter then some .nextLine
  else if scancode = uiKbBackspace then some .clearChar
  else (keyChar behind shift scancode).map .putChar

/-- Where the next byte of the mouse draws the pointer: a packet is acted on when it comes. -/
def pointerOp (s : Mouse) : Option (ℕ × ℕ) :=
  if s.isMousePacketReady then
    let p := (movePosition fb s.mousePacket s.mousePosition).2
    some (uint32 p.x, uint32 p.y)
  else none

variable {fb font behind}

theorem uiHandleKeyboard_graphics (s : KeyboardState) (g : Graphics) (scancode : Byte) :
    uiHandleKeyboard fb font behind { s with graphics := g } scancode =
      { uiHandleKeyboard fb font behind s scancode with
        graphics := (keyOp behind s.shift scancode).elim g (consoleStep fb font g) } := by
  by_cases hspecial : scancode ∈ specialKeys
  · simp only [specialKeys, List.mem_cons, List.not_mem_nil, or_false] at hspecial
    rcases hspecial with rfl | rfl | rfl | rfl | rfl | rfl <;> rfl
  · have hspecial' := hspecial
    simp only [specialKeys, List.mem_cons, List.not_mem_nil, or_false, not_or] at hspecial'
    obtain ⟨hl, hl', hr, hr', he, hb⟩ := hspecial'
    rw [keyOp, if_neg he, if_neg hb, keyChar, if_neg hspecial]
    simp only [uiHandleKeyboard, if_neg hl, if_neg hl', if_neg hr, if_neg hr', if_neg he, if_neg hb]
    by_cases hspace : scancode = uiKbSpacebar
    · rw [if_pos hspace, if_pos hspace, if_pos hspace]
      rfl
    · rw [if_neg hspace, if_neg hspace, if_neg hspace]
      change (if (uiKbQwertyTranslate behind scancode s.shift).1 ≠ 0 then _ else _ :
        KeyboardState) = _
      split <;> rfl

theorem takeByte_graphics (s : Mouse) (g : Graphics) (data : Byte) :
    takeByte data { s with graphics := g } = { takeByte data s with graphics := g } := by
  unfold takeByte
  dsimp only
  split
  · rfl
  · split
    · split <;> rfl
    · rfl
    · rfl
    · rfl

theorem uiPS2MouseHandle_graphics (s : Mouse) (g : Graphics) (data : Byte) :
    uiPS2MouseHandle fb { s with graphics := g } data =
      { uiPS2MouseHandle fb s data with
        graphics := (pointerOp fb s).elim g fun p => bgDrawCursor fb p.1 p.2 g } := by
  have hprocess : uiPS2MouseProcessPacket fb { s with graphics := g } =
      { uiPS2MouseProcessPacket fb s with
        graphics := (pointerOp fb s).elim g fun p => bgDrawCursor fb p.1 p.2 g } := by
    unfold uiPS2MouseProcessPacket pointerOp
    by_cases hready : s.isMousePacketReady = true
    · simp [hready]
    · simp [hready]
  unfold uiPS2MouseHandle
  rw [hprocess]
  dsimp only
  split
  · rfl
  · exact takeByte_graphics _ _ data

theorem handleKey_eq (s : Kernel) (scancode : Byte) : handleKey fb font behind s scancode =
    { s with
      keyboard := { uiHandleKeyboard fb font behind s.keyboard scancode with
        graphics := (handleKey fb font behind s scancode).graphics }
      graphics := (keyOp behind s.keyboard.shift scancode).elim s.graphics
        (consoleStep fb font s.graphics) } := by
  unfold handleKey
  dsimp only
  rw [uiHandleKeyboard_graphics]

theorem handleMouse_eq (s : Kernel) (data : Byte) : handleMouse fb s data =
    { s with
      mouse := { uiPS2MouseHandle fb s.mouse data with
        graphics := (handleMouse fb s data).graphics }
      graphics := (pointerOp fb s.mouse).elim s.graphics
        fun p => bgDrawCursor fb p.1 p.2 s.graphics } := by
  unfold handleMouse
  dsimp only
  rw [uiPS2MouseHandle_graphics]

theorem handleScancodes_graphics (codes : List Byte) (s : KeyboardState) (g : Graphics) :
    ∃ g', handleScancodes fb font behind codes { s with graphics := g } =
      { handleScancodes fb font behind codes s with graphics := g' } := by
  induction codes generalizing s g with
  | nil => exact ⟨g, rfl⟩
  | cons code codes ih =>
    rw [handleScancodes, List.foldl_cons, uiHandleKeyboard_graphics]
    exact ih _ _

theorem handleBytes_graphics (bytes : List Byte) (s : Mouse) (g : Graphics) :
    ∃ g', handleBytes fb bytes { s with graphics := g } =
      { handleBytes fb bytes s with graphics := g' } := by
  induction bytes generalizing s g with
  | nil => exact ⟨g, rfl⟩
  | cons data bytes ih =>
    rw [handleBytes, List.foldl_cons, uiPS2MouseHandle_graphics]
    exact ih _ _

/-- Whatever the order of the interrupts is, the keyboard is as its scancodes alone would leave it
    and the mouse as its bytes alone would: neither loses or takes a byte of the other. -/
theorem serveAll_parts (is : List Interrupt) (s : Kernel) :
    (∃ g, (serveAll fb font behind is s).keyboard =
      { handleScancodes fb font behind (scancodes is) s.keyboard with graphics := g }) ∧
    (∃ g, (serveAll fb font behind is s).mouse =
      { handleBytes fb (mouseBytes is) s.mouse with graphics := g }) ∧
    (serveAll fb font behind is s).ticks = s.ticks + ticks is := by
  induction is generalizing s with
  | nil => exact ⟨⟨s.keyboard.graphics, rfl⟩, ⟨s.mouse.graphics, rfl⟩, rfl⟩
  | cons i is ih =>
    obtain ⟨⟨g, hkeyboard⟩, ⟨g', hmouse⟩, hticks⟩ := ih (serve fb font behind s i)
    change (∃ g, (serveAll fb font behind is (serve fb font behind s i)).keyboard = _) ∧
      (∃ g, (serveAll fb font behind is (serve fb font behind s i)).mouse = _) ∧
      (serveAll fb font behind is (serve fb font behind s i)).ticks = _
    rw [hkeyboard, hmouse, hticks]
    cases i with
    | timer => exact ⟨⟨g, rfl⟩, ⟨g', rfl⟩, by change s.ticks + 1 + _ = s.ticks + (_ + 1); omega⟩
    | keyboard scancode =>
      rw [serve, handleKey_eq]
      have hcodes : ∃ g', handleScancodes fb font behind _ _ = _ := handleScancodes_graphics
        (scancodes is) (uiHandleKeyboard fb font behind s.keyboard scancode)
        (handleKey fb font behind s scancode).graphics
      obtain ⟨h, heq⟩ := hcodes
      exact ⟨⟨g, by rw [heq]; rfl⟩, ⟨g', rfl⟩, rfl⟩
    | mouse data =>
      rw [serve, handleMouse_eq]
      have hbytes : ∃ g', handleBytes fb _ _ = _ := handleBytes_graphics (mouseBytes is)
        (uiPS2MouseHandle fb s.mouse data) (handleMouse fb s data).graphics
      obtain ⟨h, heq⟩ := hbytes
      exact ⟨⟨g, rfl⟩, ⟨g', by rw [heq]; rfl⟩, rfl⟩

end Parts

/-! ### The screen that they share -/

section Screen
variable (fb : FrameBuffer) (font : Psf1Font) (behind : Byte)

def screenOp (s : Kernel) : Interrupt → Option ScreenOp
  | .timer => none
  | .keyboard scancode => (keyOp behind s.keyboard.shift scancode).map .console
  | .mouse _ => (pointerOp fb s.mouse).map fun p => .drawCursor p.1 p.2

def screenOps : Kernel → List Interrupt → List ScreenOp
  | _, [] => []
  | s, i :: is => (screenOp fb behind s i).toList ++ screenOps (serve fb font behind s i) is

def keyOps : KeyboardState → List Byte → List ConsoleOp
  | _, [] => []
  | s, code :: codes => (keyOp behind s.shift code).toList ++
      keyOps (uiHandleKeyboard fb font behind s code) codes

variable {fb font behind}

theorem keyOps_graphics (codes : List Byte) (s : KeyboardState) (g : Graphics) :
    keyOps fb font behind { s with graphics := g } codes = keyOps fb font behind s codes := by
  induction codes generalizing s g with
  | nil => rfl
  | cons code codes ih =>
    rw [keyOps, keyOps, uiHandleKeyboard_graphics, ih]
    rfl

theorem serve_graphics (s : Kernel) (i : Interrupt) : (serve fb font behind s i).graphics =
    screenRun fb font (screenOp fb behind s i).toList s.graphics := by
  cases i with
  | timer => rfl
  | keyboard scancode =>
    rw [serve, handleKey_eq, screenOp]
    cases keyOp behind s.keyboard.shift scancode <;> rfl
  | mouse data =>
    rw [serve, handleMouse_eq, screenOp]
    cases pointerOp fb s.mouse <;> rfl

theorem serveAll_graphics (is : List Interrupt) (s : Kernel) :
    (serveAll fb font behind is s).graphics =
      screenRun fb font (screenOps fb font behind s is) s.graphics := by
  induction is generalizing s with
  | nil => rfl
  | cons i is ih =>
    rw [serveAll, List.foldl_cons, ← serveAll, ih, serve_graphics, screenOps, screenRun, screenRun,
      screenRun, List.foldl_append]

theorem consoleOps_append (ops ops' : List ScreenOp) :
    consoleOps (ops ++ ops') = consoleOps ops ++ consoleOps ops' := by
  induction ops with
  | nil => rfl
  | cons op ops ih => cases op <;> simp [consoleOps, ih]

/-- The mouse puts nothing between the keys of the console. -/
theorem consoleOps_screenOps (is : List Interrupt) (s : Kernel) :
    consoleOps (screenOps fb font behind s is) =
      keyOps fb font behind s.keyboard (scancodes is) := by
  induction is generalizing s with
  | nil => rfl
  | cons i is ih =>
    rw [screenOps, consoleOps_append, ih]
    cases i with
    | timer => rfl
    | keyboard scancode =>
      rw [serve, handleKey_eq, screenOp, scancodes, keyOps, keyOps_graphics]
      cases keyOp behind s.keyboard.shift scancode <;> rfl
    | mouse data =>
      rw [serve, handleMouse_eq, screenOp]
      cases pointerOp fb s.mouse <;> rfl

theorem forall_screenOps_prefix (is : List Interrupt) (s : Kernel) {P : List ScreenOp → Prop} :
    (∀ before, before <+: is → P (screenOps fb font behind s before)) ↔
      ∀ ops, ops <+: screenOps fb font behind s is → P ops := by
  induction is generalizing s P with
  | nil =>
    constructor
    · intro h ops hops
      rw [List.prefix_nil.1 hops]
      exact h [] List.nil_prefix
    · intro h before hbefore
      rw [List.prefix_nil.1 hbefore]
      exact h [] List.nil_prefix
  | cons i is ih =>
    have hcons : screenOps fb font behind s (i :: is) = (screenOp fb behind s i).toList ++
        screenOps fb font behind (serve fb font behind s i) is := rfl
    rw [forall_prefix_cons, hcons]
    have hrest := ih (serve fb font behind s i)
      (P := fun ops => P ((screenOp fb behind s i).toList ++ ops))
    change P [] ∧ (∀ before, before <+: is → P ((screenOp fb behind s i).toList ++
      screenOps fb font behind (serve fb font behind s i) before)) ↔ _
    rw [hrest]
    cases screenOp fb behind s i with
    | none =>
      constructor
      · exact fun h => h.2
      · exact fun h => ⟨h [] List.nil_prefix, h⟩
    | some op => exact forall_prefix_cons.symm

/-- With the pointer taken off, the screen is after all interrupts what the keys alone make of it
    exactly when they never draw under the pointer. -/
theorem serveAll_transparent_iff (h : ConsoleScreen fb) (is : List Interrupt) (s : Kernel) :
    (∀ before, before <+: is → cleanImage fb (serveAll fb font behind before s).graphics =
      (consoleRun fb font (keyOps fb font behind s.keyboard (scancodes before))
        s.graphics).pixels) ↔
      SavedAtStart fb s.graphics ∧ RunKeepsUnder fb font s.graphics.lastMouseCurPos s.graphics
        (screenOps fb font behind s is) := by
  have hscreen : PointerScreen fb :=
    ⟨by have := h.width_le; omega, by have := h.height_le; omega, h.line_le⟩
  have hops : (∀ before, before <+: is → cleanImage fb (serveAll fb font behind before s).graphics =
      (consoleRun fb font (keyOps fb font behind s.keyboard (scancodes before))
        s.graphics).pixels) ↔ ∀ ops, ops <+: screenOps fb font behind s is →
      cleanImage fb (screenRun fb font ops s.graphics) =
        (consoleRun fb font (consoleOps ops) s.graphics).pixels := by
    rw [← forall_screenOps_prefix]
    apply forall₂_congr
    intro before _
    rw [serveAll_graphics, consoleOps_screenOps]
  rw [hops, ← cleanImage_start_iff hscreen]
  constructor
  · intro hall
    have hstart : cleanImage fb s.graphics = s.graphics.pixels := hall [] List.nil_prefix
    exact ⟨hstart, (prefixes_clean_iff hscreen _ ⟨hstart, rfl, rfl, rfl⟩).1 hall⟩
  · rintro ⟨hstart, hrun⟩
    exact (prefixes_clean_iff hscreen _ ⟨hstart, rfl, rfl, rfl⟩).2 hrun

/-- The answer of the mouse, a packet, the first byte of the next one and a key. -/
def moveAndType : List Interrupt :=
  [.mouse 0xFA, .mouse 0x08, .mouse 0x05, .mouse 0x03, .mouse 0x08, .keyboard 0x1E]

theorem serveAll_transparent_iff_moved :
    (∀ before, before <+: moveAndType → cleanImage smallScreen
      (serveAll smallScreen blockFont 0 before (initialKernel startedPics
        (initialGraphics fun _ => 0))).graphics = (consoleRun smallScreen blockFont
        (keyOps smallScreen blockFont 0 (initialKeyboard (initialGraphics fun _ => 0))
          (scancodes before)) (initialGraphics fun _ => 0)).pixels) ↔
      SavedAtStart smallScreen (initialGraphics fun _ => 0) ∧
      RunKeepsUnder smallScreen blockFont ⟨0, 0⟩ (initialGraphics fun _ => 0)
        (screenOps smallScreen blockFont 0 (initialKernel startedPics (initialGraphics fun _ => 0))
          moveAndType) :=
  serveAll_transparent_iff smallScreen_consoleScreen moveAndType
    (initialKernel startedPics (initialGraphics fun _ => 0))

structure SameConsole (s t : Graphics) : Prop where
  cursorPosition : s.cursorPosition = t.cursorPosition
  color : s.color = t.color
  bgColor : s.bgColor = t.bgColor

theorem SameConsole.consoleStep {s t : Graphics} (h : SameConsole s t) (op : ConsoleOp) :
    SameConsole (consoleStep fb font s op) (consoleStep fb font t op) := by
  obtain ⟨top, p, heffect⟩ := consoleStep_drawsAlike fb font op t.cursorPosition t.color t.bgColor
  have hs := heffect s h.cursorPosition h.color h.bgColor
  have ht := heffect t rfl rfl rfl
  exact ⟨hs.cursorPosition.trans ht.cursorPosition.symm,
    hs.color.trans (h.color.trans ht.color.symm),
    hs.bgColor.trans (h.bgColor.trans ht.bgColor.symm)⟩

theorem SameConsole.stepFits {s t : Graphics} (h : SameConsole s t) (op : ConsoleOp) :
    StepFits fb font s op ↔ StepFits fb font t op := by
  cases op <;> simp only [StepFits, h.cursorPosition]

theorem bgDrawCursor_onScreen_iff (h : ConsoleScreen fb) {s : Graphics}
    (hlast : InBounds fb s.lastMouseCurPos) (x y : ℕ) :
    OnScreenSoFar fb (bgDrawCursor fb x y s) ↔ OnScreenSoFar fb s := by
  have hwidth := h.width_le
  have hheight := h.height_le
  constructor
  · intro hdrawn p hp
    apply hdrawn p
    unfold bgDrawCursor clearLastMouseCurPos
    dsimp only
    rw [foldl_drawCursorCell, foldl_clearLastCell]
    exact List.mem_append_right _ (List.mem_append_right _ hp)
  · exact bgDrawCursor_onScreen (by omega) (by omega) x y hlast

/-- Moving the pointer between the operations of the console changes nothing of where they draw. -/
theorem screenRun_onScreen_iff (h : ConsoleScreen fb) (ops : List ScreenOp) {s t : Graphics}
    (hsame : SameConsole s t) (hs : CursorInside fb s) (hlast : InBounds fb s.lastMouseCurPos) :
    OnScreenSoFar fb (screenRun fb font ops s) ↔
      RunFits fb font t (consoleOps ops) ∧ OnScreenSoFar fb s := by
  have hwidth := h.width_le
  have hheight := h.height_le
  induction ops generalizing s t with
  | nil => exact (and_iff_right trivial).symm
  | cons first ops ih =>
    rw [screenRun, List.foldl_cons, ← screenRun]
    cases first with
    | console op =>
      have hlast' : InBounds fb (consoleStep fb font s op).lastMouseCurPos := by
        rwa [consoleStep_lastMouseCurPos]
      change OnScreenSoFar fb (screenRun fb font ops (consoleStep fb font s op)) ↔ _
      refine (ih (hsame.consoleStep op) (consoleStep_inside h hs op) hlast').trans ?_
      rw [consoleStep_onScreen h hs op, hsame.stepFits op, consoleOps, RunFits]
      exact and_left_comm.trans and_assoc.symm
    | drawCursor x y =>
      obtain ⟨hcursor, hcolor, hbg⟩ := bgDrawCursor_console fb x y s
      have hsame' : SameConsole (bgDrawCursor fb x y s) t :=
        ⟨hcursor.trans hsame.cursorPosition, hcolor.trans hsame.color, hbg.trans hsame.bgColor⟩
      have hs' : CursorInside fb (bgDrawCursor fb x y s) :=
        ⟨by rw [hcursor]; exact hs.x_le, by rw [hcursor]; exact hs.y_le⟩
      have hlast' : InBounds fb (bgDrawCursor fb x y s).lastMouseCurPos :=
        clampOffset_inBounds (by omega) (by omega) x y
      change OnScreenSoFar fb (screenRun fb font ops (bgDrawCursor fb x y s)) ↔ _
      exact (ih hsame' hs' hlast').trans (and_congr_right' (bgDrawCursor_onScreen_iff h hlast x y))

/-- After any interrupts, every pixel that was read or drawn is on the screen exactly when it
    would be with the keys alone, wherever the mouse went. -/
theorem serveAll_onScreen_iff (h : ConsoleScreen fb) (is : List Interrupt) {s : Kernel}
    (hs : CursorInside fb s.graphics) (hlast : InBounds fb s.graphics.lastMouseCurPos) :
    OnScreenSoFar fb (serveAll fb font behind is s).graphics ↔
      RunFits fb font s.graphics (keyOps fb font behind s.keyboard (scancodes is)) ∧
        OnScreenSoFar fb s.graphics := by
  rw [serveAll_graphics, screenRun_onScreen_iff h _ ⟨rfl, rfl, rfl⟩ hs hlast, consoleOps_screenOps]

theorem serveAll_onScreen_iff_moved :
    OnScreenSoFar smallScreen (serveAll smallScreen blockFont 0 moveAndType
        (initialKernel startedPics (initialGraphics fun _ => 0))).graphics ↔
      RunFits smallScreen blockFont (initialGraphics fun _ => 0)
        (keyOps smallScreen blockFont 0 (initialKeyboard (initialGraphics fun _ => 0)) [0x1E]) ∧
      OnScreenSoFar smallScreen (initialGraphics fun _ => 0) :=
  serveAll_onScreen_iff smallScreen_consoleScreen moveAndType
    (cursorInside_default smallScreen_consoleScreen rfl) ⟨by decide, by decide⟩

end Screen

end Rizzos.KernelEvents
