import Rizzos.InterruptTable
import Rizzos.PS2Controller
import Rizzos.Pit

set_option autoImplicit false

/-!
# The two interrupt controllers

What `interrupts/interrupts.c` and `_start` write to them, what they make of it, and the functions
that the processor calls for the interrupts they let through.
-/
namespace Rizzos.InterruptController
open ByteMemory PortAccess PS2Controller InterruptTable

/-! ### The writes of the kernel -/

def intPic1Command : ℕ := 0x20
def intPic1Data : ℕ := 0x21
def intPic2Command : ℕ := 0xA0
def intPic2Data : ℕ := 0xA1
def intPicEoi : Byte := 0x20
def intIcw1Icw4 : Byte := 0x01
def intIcw1Single : Byte := 0x02
def intIcw1Init : Byte := 0x10
def intIcw4_8086 : Byte := 0x01

def intPicEndMaster (t : Trace) : Trace := ioOutByte intPic1Command intPicEoi t

def intPicEndSlave (t : Trace) : Trace :=
  ioOutByte intPic1Command intPicEoi (ioOutByte intPic2Command intPicEoi t)

/-- Both masks are read to `a1`. Nothing is assigned to `a2`. -/
def intPicRemap (dev : Device) (offset1 offset2 : BitVec 32) (a2 : Byte) (t : Trace) : Trace :=
  let (_, t) := ioInByte dev intPic1Data t
  let t := ioWait t
  let (a1, t) := ioInByte dev intPic2Data t
  let t := ioWait t
  let t := ioWait (ioOutByte intPic1Command (intIcw1Init ||| intIcw1Icw4) t)
  let t := ioWait (ioOutByte intPic2Command (intIcw1Init ||| intIcw1Icw4) t)
  let t := ioWait (ioOutByte intPic1Data (offset1.setWidth 8) t)
  let t := ioWait (ioOutByte intPic2Data (offset2.setWidth 8) t)
  let t := ioWait (ioOutByte intPic1Data 4 t)
  let t := ioWait (ioOutByte intPic2Data 2 t)
  let t := ioWait (ioOutByte intPic1Data intIcw4_8086 t)
  let t := ioWait (ioOutByte intPic2Data intIcw4_8086 t)
  let t := ioWait (ioOutByte intPic1Data a1 t)
  ioOutByte intPic2Data a2 t

def pitSetDivisor (divisor : BitVec 16) (t : Trace) : Trace :=
  let divisor := if divisor < 100 then 100 else divisor
  let t := ioOutByte 0x40 (Pit.lowByte divisor) t
  let t := ioWait t
  ioOutByte 0x40 (Pit.highByte divisor) t

def startPorts (dev : Device) (a2 : Byte) (t : Trace) : Trace :=
  let t := pitSetDivisor 2000 t
  let t := intPicRemap dev 0x20 0x28 a2 t
  let t := uiPS2MouseInit dev t
  let t := ioOutByte intPic1Data 0b11111000 t
  ioOutByte intPic2Data 0b11101111 t

/-! ### The controllers -/

inductive InitWord where
  | icw2
  | icw3
  | icw4
deriving DecidableEq, Repr

/-- One controller: the words of its initialization that it waits for, those that it has, the
    lines that are masked and those that are in service. -/
structure Pic where
  awaits : List InitWord
  vectorBase : Byte
  wiring : Byte
  mode : Byte
  mask : Byte
  inService : Byte
deriving DecidableEq, Repr

/-- The end of an interrupt takes the line of the highest priority, which is the lowest one, out of
    service. -/
def Pic.command (p : Pic) (value : Byte) : Pic :=
  if value &&& intIcw1Init ≠ 0 then
    { p with awaits := .icw2 :: ((if value &&& intIcw1Single = 0 then [.icw3] else []) ++
               if value &&& intIcw1Icw4 ≠ 0 then [.icw4] else [])
             mask := 0
             inService := 0 }
  else if value = intPicEoi then { p with inService := p.inService &&& (p.inService - 1) }
  else p

def Pic.data (p : Pic) (value : Byte) : Pic :=
  match p.awaits with
  | [] => { p with mask := value }
  | .icw2 :: awaits => { p with awaits := awaits, vectorBase := value &&& 0b11111000 }
  | .icw3 :: awaits => { p with awaits := awaits, wiring := value }
  | .icw4 :: awaits => { p with awaits := awaits, mode := value }

structure Pics where
  master : Pic
  slave : Pic
deriving DecidableEq, Repr

def Pics.step (p : Pics) : PortEvent → Pics
  | .write port value =>
    if port = intPic1Command then { p with master := p.master.command value }
    else if port = intPic1Data then { p with master := p.master.data value }
    else if port = intPic2Command then { p with slave := p.slave.command value }
    else if port = intPic2Data then { p with slave := p.slave.data value }
    else p
  | .read _ _ => p

/-- A line is let through when it is not masked and no line of its priority or of a higher one is
    in service. Its vector goes to the processor. -/
def Pic.accept (p : Pic) (line : ℕ) : Option (Byte × Pic) :=
  if p.awaits = [] ∧ p.mode &&& intIcw4_8086 ≠ 0 ∧ p.mask.getLsbD line = false ∧
      ∀ k ≤ line, p.inService.getLsbD k = false then
    some (p.vectorBase + BitVec.ofNat 8 line,
      { p with inService := p.inService ||| 1#8 <<< line })
  else none

/-- The slave is wired to line 2 of the master, and both must know it. -/
def Pics.accept (p : Pics) (irq : ℕ) : Option (Byte × Pics) :=
  if irq < 8 then
    if irq = 2 then none
    else (p.master.accept irq).map fun r => (r.1, { p with master := r.2 })
  else if irq < 16 ∧ p.master.wiring.getLsbD 2 = true ∧ p.slave.wiring = 2 then
    (p.master.accept 2).bind fun master => (p.slave.accept (irq - 8)).map fun r =>
      (r.1, ⟨master.2, r.2⟩)
  else none

/-- The controllers as `_start` leaves them: the timer, the keyboard, the slave and the mouse. -/
def startedPics : Pics where
  master := ⟨[], 0x20, 4, 1, 0b11111000, 0⟩
  slave := ⟨[], 0x28, 2, 1, 0b11101111, 0⟩

section Ports

theorem replay_ioWait (p : Pics) (t : Trace) :
    replay Pics.step p (ioWait t) = replay Pics.step p t := by
  rw [ioWait, ioOutByte, replay_writePort]
  rfl

theorem replay_uiPS2MouseInit (p : Pics) (dev : Device) (t : Trace) :
    replay Pics.step p (uiPS2MouseInit dev t) = replay Pics.step p t := by
  have hpoll : ∀ ready n t, replay Pics.step p (poll dev 0x64 ready n t) =
      replay Pics.step p t := replay_poll (fun _ _ => rfl) p dev
  have hread : ∀ q port value, Pics.step q (.read port value) = q := fun _ _ _ => rfl
  have hcommand : ∀ q value, Pics.step q (.write 0x64 value) = q := fun _ _ => rfl
  have hdata : ∀ q value, Pics.step q (.write 0x60 value) = q := fun _ _ => rfl
  simp only [uiPS2MouseInit, mouseRead, mouseWrite, mouseWait, mouseWaitInput, ioOutByte,
    ioInByte, replay_writePort, replay_readPort, hpoll, hread, hcommand, hdata]

/-- Whatever the controllers were before, whatever their masks were read as and whatever `a2` is. -/
theorem replay_startPorts (p : Pics) (dev : Device) (a2 : Byte) (t : Trace) :
    replay Pics.step p (startPorts dev a2 t) = startedPics := by
  have hread : ∀ q port value, Pics.step q (.read port value) = q := fun _ _ _ => rfl
  simp only [startPorts, ioOutByte, replay_writePort, replay_uiPS2MouseInit, intPicRemap,
    replay_ioWait, ioInByte, replay_readPort, hread, pitSetDivisor]
  rfl

end Ports

end Rizzos.InterruptController
