import Rizzos.PortAccess

set_option autoImplicit false

/-! The ports of `io.c`, and the start of the mouse in `userinput/mouse.c`. -/
namespace Rizzos.PS2Controller
open ByteMemory PortAccess

def ioOutByte (port : ℕ) (value : Byte) (t : Trace) : Trace := writePort port value t

def ioInByte (dev : Device) (port : ℕ) (t : Trace) : Byte × Trace := readPort dev port t

def ioWait (t : Trace) : Trace := ioOutByte 0x80 0 t

section Init
variable (dev : Device)

def timeout : ℕ := 100000

def canWrite (status : Byte) : Bool := status &&& 0b10 = 0

def canRead (status : Byte) : Bool := status &&& 1 ≠ 0

def mouseWait (t : Trace) : Trace := poll dev 0x64 canWrite timeout t

def mouseWaitInput (t : Trace) : Trace := poll dev 0x64 canRead timeout t

def mouseWrite (value : Byte) (t : Trace) : Trace :=
  let t := mouseWait dev t
  let t := ioOutByte 0x64 0xD4 t
  let t := mouseWait dev t
  ioOutByte 0x60 value t

def mouseRead (t : Trace) : Byte × Trace := ioInByte dev 0x60 (mouseWaitInput dev t)

def uiPS2MouseInit (t : Trace) : Trace :=
  let t := mouseWait dev t
  let t := ioOutByte 0x64 0xA8 t
  let t := mouseWait dev t
  let t := ioOutByte 0x64 0x20 t
  let t := mouseWaitInput dev t
  let (status, t) := ioInByte dev 0x60 t
  let status := status ||| 2
  let t := mouseWait dev t
  let t := ioOutByte 0x64 0x60 t
  let t := mouseWait dev t
  let t := ioOutByte 0x60 status t
  let t := mouseWrite dev 0xF6 t
  let t := mouseWaitInput dev t
  let (_, t) := mouseRead dev t
  let t := mouseWrite dev 0xF4 t
  let t := mouseWaitInput dev t
  (mouseRead dev t).2

end Init

/-! ### The handshake -/

/-- A byte is written after the controller has taken the last one, and read after it has one, or
    after the whole timeout. -/
def Handshake : PortEvent → Trace → Prop
  | .write port _, t => (port = 0x60 ∨ port = 0x64) → Polled 0x64 canWrite timeout t
  | .read port _, t => port = 0x60 → Polled 0x64 canRead timeout t

section Handshakes
variable (dev : Device) {t : Trace}

theorem guarded_poll (h : Guarded Handshake t) (ready : Byte → Bool) (n : ℕ) :
    Guarded Handshake (poll dev 0x64 ready n t) :=
  h.poll (fun _ _ hdata => absurd hdata (by decide)) dev ready n

theorem guarded_write (h : Guarded Handshake t) (port : ℕ) (value : Byte) :
    Guarded Handshake (ioOutByte port value (mouseWait dev t)) :=
  guarded_append_singleton.2 ⟨guarded_poll dev h _ _, fun _ => polled_poll _ _⟩

theorem guarded_mouseWrite (h : Guarded Handshake t) (value : Byte) :
    Guarded Handshake (mouseWrite dev value t) :=
  guarded_write dev (guarded_write dev h 0x64 0xD4) 0x60 value

theorem guarded_read (h : Guarded Handshake t) : Guarded Handshake (mouseRead dev t).2 :=
  guarded_append_singleton.2 ⟨guarded_poll dev h _ _, fun _ => polled_poll _ _⟩

theorem prefix_write (port : ℕ) (value : Byte) (t : Trace) :
    t <+: ioOutByte port value (mouseWait dev t) :=
  (prefix_poll _ t).trans (List.prefix_append _ _)

theorem prefix_mouseWrite (value : Byte) (t : Trace) : t <+: mouseWrite dev value t :=
  (prefix_write dev 0x64 0xD4 t).trans (prefix_write dev 0x60 value _)

theorem prefix_read (t : Trace) : t <+: (mouseRead dev (mouseWaitInput dev t)).2 :=
  (prefix_poll _ t).trans ((prefix_poll _ _).trans (List.prefix_append _ _))

def askStatus : Trace :=
  ioOutByte 0x64 0x20 (mouseWait dev (ioOutByte 0x64 0xA8 (mouseWait dev [])))

/-- However the controller answers, each byte waits for it, and the bytes written are those that
    set bit 1 of the first byte read, behind the request, and start the mouse. -/
theorem uiPS2MouseInit_handshake : Guarded Handshake (uiPS2MouseInit dev []) ∧
    ∃ before status after, uiPS2MouseInit dev [] = before ++ .read 0x60 status :: after ∧
      reads 0x60 before = [] ∧ writes before = [(0x64, 0xA8), (0x64, 0x20)] ∧
      writes (uiPS2MouseInit dev []) = [(0x64, 0xA8), (0x64, 0x20), (0x64, 0x60),
        (0x60, status ||| 2), (0x64, 0xD4), (0x60, 0xF6), (0x64, 0xD4), (0x60, 0xF4)] := by
  constructor
  · have hask : Guarded Handshake (askStatus dev) :=
      guarded_write dev (guarded_write dev guarded_nil 0x64 0xA8) 0x64 0x20
    have hconfig := guarded_write dev (guarded_write dev (guarded_read dev hask) 0x64 0x60) 0x60
      ((mouseRead dev (askStatus dev)).1 ||| 2)
    have hdefaults := guarded_poll dev (guarded_mouseWrite dev hconfig 0xF6) canRead timeout
    have hreporting := guarded_poll dev
      (guarded_mouseWrite dev (guarded_read dev hdefaults) 0xF4) canRead timeout
    exact guarded_read dev hreporting
  · have hprefix : (mouseRead dev (askStatus dev)).2 <+: uiPS2MouseInit dev [] :=
      (prefix_write dev 0x64 0x60 _).trans <| (prefix_write dev 0x60
        ((mouseRead dev (askStatus dev)).1 ||| 2) _).trans <| (prefix_mouseWrite dev 0xF6 _).trans <|
        (prefix_read dev _).trans <| (prefix_mouseWrite dev 0xF4 _).trans (prefix_read dev _)
    obtain ⟨after, hafter⟩ := hprefix
    refine ⟨mouseWaitInput dev (askStatus dev), (mouseRead dev (askStatus dev)).1, after, ?_, ?_, ?_,
      ?_⟩
    · rw [← hafter]
      exact List.append_assoc _ _ _
    · simp only [askStatus, mouseWaitInput, mouseWait, ioOutByte, reads_writePort,
        reads_poll (show 0x64 ≠ 0x60 by decide)]
      rfl
    · simp only [askStatus, mouseWaitInput, mouseWait, ioOutByte, writes_poll, writes_writePort]
      rfl
    · simp only [uiPS2MouseInit, mouseRead, mouseWrite, mouseWait, mouseWaitInput, ioOutByte,
        ioInByte, askStatus, writes_poll, writes_writePort, writes_readPort]
      rfl

end Handshakes

/-! ### The controller and the mouse behind it -/

inductive Target where
  | keyboard
  | config
  | mouse
deriving DecidableEq, Repr

/-- The configuration byte, the bytes to be read with the oldest first, and whether the mouse sends
    packets. -/
structure Controller where
  config : Byte
  pending : List Byte
  target : Target
  reporting : Bool
deriving DecidableEq, Repr

/-- `0xA8` lets the mouse's clock run: bit 5 of the configuration stops it. -/
def Controller.command (c : Controller) (value : Byte) : Controller :=
  if value = 0xA8 then { c with config := c.config &&& 0b11011111 }
  else if value = 0x20 then { c with pending := c.pending ++ [c.config] }
  else if value = 0x60 then { c with target := .config }
  else if value = 0xD4 then { c with target := .mouse }
  else c

/-- The mouse answers both of its commands with `0xFA`. -/
def Controller.data (c : Controller) (value : Byte) : Controller :=
  match c.target with
  | .keyboard => c
  | .config => { c with config := value, target := .keyboard }
  | .mouse =>
    let c := { c with target := .keyboard }
    if value = 0xF6 then { c with reporting := false, pending := c.pending ++ [0xFA] }
    else if value = 0xF4 then { c with reporting := true, pending := c.pending ++ [0xFA] }
    else c

def Controller.step (c : Controller) : PortEvent → Controller
  | .write port value =>
    if port = 0x64 then c.command value else if port = 0x60 then c.data value else c
  | .read port _ => if port = 0x60 then { c with pending := c.pending.tail } else c

/-- A controller that hands over its bytes in their order. Its status may be anything. -/
def Answers (dev : Device) (c : Controller) : Prop :=
  ∀ t value, (replay Controller.step c t).pending.head? = some value → dev t 0x60 = value

section Start
variable {dev : Device} {c : Controller}

theorem replay_status (ready : Byte → Bool) (n : ℕ) (t : Trace) :
    replay Controller.step c (poll dev 0x64 ready n t) = replay Controller.step c t :=
  replay_poll (fun _ _ => rfl) c dev ready n t

theorem replay_mouseWrite (value : Byte) (t : Trace) :
    replay Controller.step c (mouseWrite dev value t) =
      ((replay Controller.step c t).command 0xD4).data value := by
  simp only [mouseWrite, mouseWait, ioOutByte, replay_status, replay_writePort]
  rfl

theorem replay_mouseRead (t : Trace) :
    replay Controller.step c (mouseRead dev (mouseWaitInput dev t)).2 =
      { replay Controller.step c t with pending := (replay Controller.step c t).pending.tail } := by
  change replay Controller.step c (readPort dev 0x60 (mouseWaitInput dev (mouseWaitInput dev t))).2 =
    _
  rw [replay_readPort, mouseWaitInput, replay_status, mouseWaitInput, replay_status]
  rfl

/-- Bytes that were there before come out first, and as many are left behind. -/
theorem uiPS2MouseInit_controller (h : Answers dev c) :
    replay Controller.step c (uiPS2MouseInit dev []) =
      { config := (c.pending ++ [c.config &&& 0b11011111]).headD 0 ||| 2
        pending := (c.pending ++ [c.config &&& 0b11011111, 0xFA, 0xFA]).drop 3
        target := .keyboard
        reporting := true } := by
  have hask : replay Controller.step c (mouseWaitInput dev (askStatus dev)) =
      { c with config := c.config &&& 0b11011111
               pending := c.pending ++ [c.config &&& 0b11011111] } := by
    simp only [askStatus, mouseWait, mouseWaitInput, ioOutByte, replay_status, replay_writePort]
    rfl
  have hstatus : (mouseRead dev (askStatus dev)).1 =
      (c.pending ++ [c.config &&& 0b11011111]).headD 0 := by
    apply h
    rw [hask]
    cases c.pending <;> rfl
  have hread : replay Controller.step c (mouseRead dev (askStatus dev)).2 =
      { c with config := c.config &&& 0b11011111
               pending := (c.pending ++ [c.config &&& 0b11011111]).tail } := by
    change replay Controller.step c (readPort dev 0x60 (mouseWaitInput dev (askStatus dev))).2 = _
    rw [replay_readPort, hask]
    rfl
  change replay Controller.step c (mouseRead dev (mouseWaitInput dev (mouseWrite dev 0xF4
    (mouseRead dev (mouseWaitInput dev (mouseWrite dev 0xF6 (ioOutByte 0x60
      ((mouseRead dev (askStatus dev)).1 ||| 2) (mouseWait dev (ioOutByte 0x64 0x60
        (mouseWait dev (mouseRead dev (askStatus dev)).2))))))).2))).2 = _
  rw [hstatus, replay_mouseRead, replay_mouseWrite, replay_mouseRead, replay_mouseWrite]
  simp only [ioOutByte, mouseWait, replay_writePort, replay_status, hread]
  cases c.pending with
  | nil => rfl
  | cons first pending =>
    cases pending with
    | nil => rfl
    | cons second pending => cases pending <;> simp [Controller.step, Controller.command, Controller.data]

def promptDevice (c : Controller) : Device := fun t port =>
  if port = 0x60 then (replay Controller.step c t).pending.headD 0 else 1

theorem promptDevice_answers (c : Controller) : Answers (promptDevice c) c := by
  intro t value h
  rw [promptDevice, if_pos rfl, List.headD_eq_head?_getD, h]
  rfl

/-- A keyboard byte is pending, and it is taken for the configuration. -/
theorem uiPS2MouseInit_controller_pending :
    replay Controller.step ⟨0x65, [0x1C], .keyboard, false⟩
        (uiPS2MouseInit (promptDevice ⟨0x65, [0x1C], .keyboard, false⟩) []) =
      ⟨0x1E, [0xFA], .keyboard, true⟩ :=
  uiPS2MouseInit_controller (promptDevice_answers ⟨0x65, [0x1C], .keyboard, false⟩)

end Start

end Rizzos.PS2Controller
