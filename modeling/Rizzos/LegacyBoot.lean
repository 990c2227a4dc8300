import Rizzos.RealMode

set_option autoImplicit false

/-!
# The boot sector

The code of the sector, label by label, against any BIOS. The parameter block, the variables and the
texts are bytes of memory behind `ds`, and the stack is memory too. What lies behind the far return
(the message of a failure, which no jump reaches) and the segments `fs` and `gs` are left out.
-/
namespace Rizzos.LegacyBoot
open ByteMemory RealMode

/-! ### The BIOS -/

section Interrupts

/-- The interrupts of the boot sector, with the registers that they take. -/
inductive Call where
  | int10 (ax bx : Word)
  | int13 (ax bx cx dx es : Word)
  | int18
deriving Repr, DecidableEq

/-- A call comes back with its carry flag, its `ax` and what it did to the memory, its use of the
    caller's stack included. The other registers are kept. -/
structure Reply where
  carry : Bool
  ax : Word
  effect : ℕ → Mem → Mem

/-- What each call does may depend on the calls before it. Its effect is given the stack's top. -/
abbrev Bios := List Call → Call → Reply

abbrev State := Machine Call
abbrev Run := Except (Stop Call)

def interrupt (bios : Bios) (c : Call) (s : State) : Bool × State :=
  let r := bios s.calls c
  (r.carry, { s with ax := r.ax, mem := r.effect s.top s.mem, calls := s.calls ++ [c] })

end Interrupts

/-! ### The data of the sector -/

section Data

def dw (w : ℕ) : List Byte := [BitVec.ofNat 8 w, BitVec.ofNat 8 (w / 2 ^ 8)]
def dd (d : ℕ) : List Byte := dw d ++ dw (d / 2 ^ 16)
def text (s : String) : List Byte := s.toList.map fun c => BitVec.ofNat 8 c.toNat

def parameterBlock : List Byte :=
  text "mkfs.fat" ++ dw 0x0200 ++ [0x01] ++ dw 0x0020 ++ [0x02] ++ dw 0x0000 ++ dw 0x0000 ++
  [0xF8] ++ dw 0x0000 ++ dw 0x0020 ++ dw 0x0008 ++ dd 0x00000000 ++ dd 0x00013880 ++
  dd 0x00000268 ++ dw 0x0000 ++ dw 0x0000 ++ dd 0x00000002 ++ dw 0x0001 ++ dw 0x0006 ++
  List.replicate 12 0 ++ [0x80] ++ [0x00] ++ [0x29] ++ dd 0xFFFFFFFF ++ text "RIZZOS BOOT" ++
  text "FAT32   "

def bytesPerSector : Word := 0x000B
def sectorsPerCluster : Word := 0x000D
def reservedSectors : Word := 0x000E
def totalFATs : Word := 0x0010
def sectorsPerTrack : Word := 0x0018
def sectorsPerHead : Word := 0x001A
def bigSectorsPerFAT : Word := 0x0024
def rootDirectoryStart : Word := 0x002C
def driveNumber : Word := 0x0040

def hello : List Byte := text "hello world!!" ++ [0x0D, 0x0A]
def progress : List Byte := text "."
def failure : List Byte := [0x0D, 0x0A] ++ text "Kernel loading failed..." ++ [0x0D, 0x0A]
def crlf : List Byte := [0x0D, 0x0A]

def readonlyData : List Byte := hello ++ [0] ++ progress ++ [0] ++ failure ++ [0] ++ crlf ++ [0]

inductive Site where
  | hello | rootCluster | root | rootDone | kernelCluster | kernel | kernelDone | lbachs | progress
deriving DecidableEq, Repr

/-- Where the assembler puts the first variable, and what each call of the code pushes. The code
    stands in front of the variables and the signature behind the texts. -/
structure Layout where
  absoluteSector : Word
  site : Site → Word
  behind_code : 0x5A ≤ absoluteSector.toNat
  before_signature : absoluteSector.toNat + 57 ≤ 510

variable (code : Layout)

def Layout.absoluteHead : Word := code.absoluteSector + BitVec.ofNat 16 1
def Layout.absoluteTrack : Word := code.absoluteSector + BitVec.ofNat 16 2
def Layout.datasector : Word := code.absoluteSector + BitVec.ofNat 16 3
def Layout.cluster : Word := code.absoluteSector + BitVec.ofNat 16 5
def Layout.msgHello : Word := code.absoluteSector + BitVec.ofNat 16 7
def Layout.msgProgress : Word := code.absoluteSector + BitVec.ofNat 16 23
def Layout.msgCRLF : Word := code.absoluteSector + BitVec.ofNat 16 54

end Data

/-! ### The routines -/

section Routines
variable (bios : Bios) (code : Layout)

def putsLoop : ℕ → State → Run State
  | 0, _ => .error .fuel
  | fuel + 1, s =>
    let s := lodsb s
    if lo s.ax = 0 then .ok s
    else
      let s := { s with ax := setHi s.ax 0x0E }
      let s := { s with bx := setHi s.bx 0x00 }
      let s := { s with bx := setLo s.bx 0x07 }
      putsLoop fuel (interrupt bios (.int10 s.ax s.bx) s).2

def puts (fuel : ℕ) (s : State) : Run State := do
  let s := push s.ax (push s.si s)
  let s ← putsLoop bios fuel s
  let (ax, s) := pop s
  let s := { s with ax := ax }
  let (si, s) := pop s
  .ok { s with si := si }

def lbachs (s : State) : Run State := do
  let s := { s with dx := 0 }
  let some (q, r) := div s.dx s.ax (loadWord s.mem s.ds sectorsPerTrack) | .error .divide
  let s := { s with ax := q, dx := r }
  let s := { s with dx := setLo s.dx (lo s.dx + 1) }
  let s := { s with mem := storeByte s.mem s.ds code.absoluteSector (lo s.dx) }
  let s := { s with dx := 0 }
  let some (q, r) := div s.dx s.ax (loadWord s.mem s.ds sectorsPerHead) | .error .divide
  let s := { s with ax := q, dx := r }
  let s := { s with mem := storeByte s.mem s.ds code.absoluteHead (lo s.dx) }
  .ok { s with mem := storeByte s.mem s.ds code.absoluteTrack (lo s.ax) }

def clusterLBA (s : State) : Run State :=
  let s := { s with ax := s.ax - 0x0002 }
  let s := { s with cx := 0 }
  let s := { s with cx := setLo s.cx (loadByte s.mem s.ds sectorsPerCluster) }
  let (dx, ax) := mul s.ax s.cx
  let s := { s with dx := dx, ax := ax }
  .ok { s with ax := s.ax + loadWord s.mem s.ds code.datasector }

def popAll (s : State) : State :=
  let (cx, s) := pop s
  let s := { s with cx := cx }
  let (bx, s) := pop s
  let s := { s with bx := bx }
  let (ax, s) := pop s
  { s with ax := ax }

def setupRead (s : State) : State :=
  let s := { s with ax := setHi s.ax 0x2 }
  let s := { s with ax := setLo s.ax 0x1 }
  let s := { s with cx := setHi s.cx (loadByte s.mem s.ds code.absoluteTrack) }
  let s := { s with cx := setLo s.cx (loadByte s.mem s.ds code.absoluteSector) }
  let s := { s with dx := setHi s.dx (loadByte s.mem s.ds code.absoluteHead) }
  { s with dx := setLo s.dx (loadByte s.mem s.ds driveNumber) }

/-- The label `.sector_loop`. Interrupt 18h starts the ROM's program. -/
def sectorLoop : ℕ → State → Run State
  | 0, _ => .error .fuel
  | fuel + 1, s => do
    let s := push s.cx (push s.bx (push s.ax s))
    let s ← call (code.site .lbachs) (lbachs code) s
    let s := setupRead code s
    let (carry, s) := interrupt bios (.int13 s.ax s.bx s.cx s.dx s.es) s
    if carry then
      let s := { s with ax := 0 }
      let (_, s) := interrupt bios (.int13 s.ax s.bx s.cx s.dx s.es) s
      let s := { s with di := s.di - 1 }
      let zf := s.di == 0
      let s := popAll s
      if zf then .error (.ended (interrupt bios .int18 s).2) else sectorLoop fuel s
    else
      let s := { s with si := code.msgProgress }
      let s ← call (code.site .progress) (puts bios fuel) s
      let s := popAll s
      let s := { s with bx := s.bx + loadWord s.mem s.ds bytesPerSector }
      .ok { s with ax := s.ax + 1 }

/-- The label `.main`. The count is in `cx`. -/
def readSectors : ℕ → State → Run State
  | 0, _ => .error .fuel
  | fuel + 1, s => do
    let s := { s with di := 0x05 }
    let s ← sectorLoop bios code fuel s
    let s := { s with cx := s.cx - 1 }
    if s.cx = 0 then .ok s else readSectors fuel s

/-- From `start` to the first call of `ReadSectors`. -/
def openRoot (fuel : ℕ) (s : State) : Run State := do
  let s := { s with ax := 0x07C0 }
  let s := { s with ds := s.ax, es := s.ax }
  let s := { s with ax := 0x00 }
  let s := { s with ss := s.ax, sp := 0xFFFF }
  let s := { s with si := code.msgHello }
  let s ← call (code.site .hello) (puts bios fuel) s
  -- the word at the byte `SectorsPerCluster` runs into `ReservedSectors`
  let s := { s with cx := loadWord s.mem s.ds sectorsPerCluster }
  let s := { s with ax := setLo s.ax (loadByte s.mem s.ds totalFATs) }
  let (dx, ax) := mul s.ax (loadWord s.mem s.ds bigSectorsPerFAT)
  let s := { s with dx := dx, ax := ax }
  let s := { s with ax := s.ax + loadWord s.mem s.ds reservedSectors }
  let s := { s with mem := storeWord s.mem s.ds code.datasector s.ax }
  let s := { s with ax := loadWord s.mem s.ds rootDirectoryStart }
  let s ← call (code.site .rootCluster) (clusterLBA code) s
  .ok { s with bx := 0x200 }

/-- From the root directory to the second call of `ReadSectors`. -/
def openKernel (fuel : ℕ) (s : State) : Run State := do
  let s := { s with di := 0x0200 + 0x20 }
  let s := { s with si := code.msgCRLF }
  let s ← call (code.site .rootDone) (puts bios fuel) s
  let s := { s with dx := loadWord s.mem s.ds (s.di + 0x001A) }
  let s := { s with mem := storeWord s.mem s.ds code.cluster s.dx }
  let s := { s with ax := 0x0100 }
  let s := { s with es := s.ax, bx := 0 }
  let s := { s with cx := 0x0008 }
  let s := { s with ax := loadWord s.mem s.ds code.cluster }
  call (code.site .kernelCluster) (clusterLBA code) s

/-- The far return, with the segment and the offset that it goes to. -/
def enterKernel (fuel : ℕ) (s : State) : Run (Word × Word × State) := do
  let s := { s with si := code.msgCRLF }
  let s ← call (code.site .kernelDone) (puts bios fuel) s
  let s := push 0x0000 (push 0x0100 s)
  let (ip, s) := pop s
  let (cs, s) := pop s
  .ok (cs, ip, s)

def start (fuel : ℕ) (s : State) : Run (Word × Word × State) := do
  let s ← openRoot bios code fuel s
  let s ← call (code.site .root) (readSectors bios code fuel) s
  let s ← openKernel bios code fuel s
  let s ← call (code.site .kernel) (readSectors bios code fuel) s
  enterKernel bios code fuel s

end Routines

end Rizzos.LegacyBoot
