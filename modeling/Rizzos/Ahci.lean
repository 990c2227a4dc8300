import Mathlib.Data.BitVec
import Rizzos.CInt
import Rizzos.Memory
import Rizzos.MemberWrites

set_option autoImplicit false

/-!
# The AHCI driver

`ahci.c` builds a command in physical memory, where the controller fetches it, and starts it
through the registers of a port. The registers are not part of the memory. What the
controller answers when the driver polls a register is a sequence, one value a poll.
-/
namespace Rizzos.Ahci
open ByteMemory CInt Memory MemberWrites

/-! ### The structs of `ahci.h` and `fis.h` -/

/-- The registers of `HBAPort` that the driver writes. -/
structure HBAPort where
  commandListBase : BitVec 32
  commandListBaseUpper : BitVec 32
  fisBaseAddress : BitVec 32
  fisBaseAddressUpper : BitVec 32
  interruptStatus : BitVec 32
  cmdSts : BitVec 32
  commandIssue : BitVec 32

/-- What the polls of the controller's own registers return. -/
structure Controller where
  cmdSts : ℕ → BitVec 32
  taskFileData : ℕ → BitVec 32
  commandIssue : ℕ → BitVec 32
  interruptStatus : ℕ → BitVec 32

def readyController : Controller where
  cmdSts _ := 0
  taskFileData _ := 0
  commandIssue _ := 0
  interruptStatus _ := 0

namespace HBACommandHeader

def flags : ℕ := 0
def prdtLength : ℕ := 2
def commandTableBaseAddress : ℕ := 8
def commandTableBaseAddressUpper : ℕ := 12
def size : ℕ := 32

end HBACommandHeader

namespace HBAPRDTEntry

def dataBaseAddress : ℕ := 0
def dataBaseAddressUpper : ℕ := 4

def byteCountUnit : ℕ := 12
def size : ℕ := 16

end HBAPRDTEntry

namespace HBACommandTable

def commandFIS : ℕ := 0
def prdtEntry : ℕ := 128
def size : ℕ := 128

end HBACommandTable

namespace FISRegH2D

def fisType : ℕ := 0

def commandControlUnit : ℕ := 1
def command : ℕ := 2
def lba0 : ℕ := 4
def lba1 : ℕ := 5
def lba2 : ℕ := 6
def deviceRegister : ℕ := 7
def lba3 : ℕ := 8
def lba4 : ℕ := 9
def lba5 : ℕ := 10
def countLow : ℕ := 12
def countHigh : ℕ := 13
def size : ℕ := 20

end FISRegH2D

def fisTypeRegH2D : ℕ := 0x27
def ataCmdReadDmaEx : ℕ := 0x25
def ataDevBusy : BitVec 32 := 0x80
def ataDevDrq : BitVec 32 := 0x08
def hbaPxCmdST : BitVec 32 := 0x0001
def hbaPxCmdFRE : BitVec 32 := 0x0010
def hbaPxCmdFR : BitVec 32 := 0x4000
def hbaPxCmdCR : BitVec 32 := 0x8000
def hbaPxIsTFES : BitVec 32 := 0x40000000

/-! ### `AHCI_Port_Read` -/

def fillHeader (m : Mem) (cmdHeader : ℕ) : Mem :=
  let m := storeBits m (cmdHeader + HBACommandHeader.flags) 1 0 5 (FISRegH2D.size / 4)
  let m := storeBits m (cmdHeader + HBACommandHeader.flags) 1 6 1 0
  storeLE m (cmdHeader + HBACommandHeader.prdtLength) 2 1

/-- `(sectorCount << 9) - 1` in 32 bits. -/
def byteCount (sectorCount : ℕ) : ℕ := uint32 (uint32 (sectorCount * 2 ^ 9) - 1)

def fillPRDTEntry (m : Mem) (prdtEntry sectorCount buffer : ℕ) : Mem :=
  let m := writeAll prdtEntry [
    ⟨HBAPRDTEntry.dataBaseAddress, 4, buffer⟩,
    ⟨HBAPRDTEntry.dataBaseAddressUpper, 4, buffer >>> 32⟩] m
  let m := storeBits m (prdtEntry + HBAPRDTEntry.byteCountUnit) 4 0 22
    (byteCount sectorCount)
  storeBits m (prdtEntry + HBAPRDTEntry.byteCountUnit) 4 31 1 1

def fisWrites (sector sectorCount : ℕ) : List Write :=
  let sectorL := sector % 2 ^ 32
  let sectorH := (sector >>> 32) % 2 ^ 32
  [⟨FISRegH2D.command, 1, ataCmdReadDmaEx⟩,
    ⟨FISRegH2D.lba0, 1, sectorL⟩,
    ⟨FISRegH2D.lba1, 1, sectorL >>> 8⟩,
    ⟨FISRegH2D.lba2, 1, sectorL >>> 16⟩,
    ⟨FISRegH2D.lba3, 1, sectorH⟩,
    ⟨FISRegH2D.lba4, 1, sectorH >>> 8⟩,
    ⟨FISRegH2D.lba5, 1, sectorH >>> 16⟩,
    ⟨FISRegH2D.deviceRegister, 1, 1 <<< 6⟩,
    ⟨FISRegH2D.countLow, 1, sectorCount &&& 0xFF⟩,
    ⟨FISRegH2D.countHigh, 1, (sectorCount >>> 8) &&& 0xFF⟩]

def fillFIS (m : Mem) (cmdFIS sector sectorCount : ℕ) : Mem :=
  let m := storeLE m (cmdFIS + FISRegH2D.fisType) 1 fisTypeRegH2D
  let m := storeBits m (cmdFIS + FISRegH2D.commandControlUnit) 1 7 1 1
  writeAll cmdFIS (fisWrites sector sectorCount) m

/-- The bytes that `MEM_Set` clears: the table, and all of its entries but one. -/
def clearedSize (prdtLength : ℕ) : ℕ :=
  uint64 (HBACommandTable.size + (prdtLength - 1 : ℤ) * HBAPRDTEntry.size)

def fillTable (m : Mem) (commandTable prdtLength sector sectorCount buffer : ℕ) : Mem :=
  let m := memSet m commandTable 0 (clearedSize prdtLength)
  let m := fillPRDTEntry m (commandTable + HBACommandTable.prdtEntry) sectorCount buffer
  fillFIS m (commandTable + HBACommandTable.commandFIS) sector sectorCount

def fillCommand (m : Mem) (cmdHeader : ℕ) (commandTable : Mem → ℕ)
    (sector sectorCount buffer : ℕ) : Mem :=
  let m := fillHeader m cmdHeader
  fillTable m (commandTable m) (load16 m (cmdHeader + HBACommandHeader.prdtLength))
    sector sectorCount buffer

def HBAPort.readHeader (port : HBAPort) : ℕ := port.commandListBase.toNat

def readTable (cmdHeader : ℕ) (m : Mem) : ℕ :=
  load32 m (cmdHeader + HBACommandHeader.commandTableBaseAddress)

def spinLoop (taskFileData : ℕ → BitVec 32) : ℕ → ℕ → ℕ
  | 0, spin => spin
  | fuel + 1, spin =>
    if taskFileData spin &&& (ataDevBusy ||| ataDevDrq) ≠ 0 then
      spinLoop taskFileData fuel (spin + 1)
    else spin

def spinLimit : ℕ := 1000000

def issueLoop (hba : Controller) : ℕ → ℕ → Option Bool
  | 0, _ => none
  | fuel + 1, turn =>
    if hba.commandIssue turn = 0 then some true
    else if hba.interruptStatus turn &&& hbaPxIsTFES ≠ 0 then some false
    else issueLoop hba fuel (turn + 1)

/-- The state of the driver: memory, the registers of the port, and whether a command is out. -/
structure PortState (α : Type) extends Machine α where
  hbaPort : HBAPort
  issued : Bool

/-- The state at the end, and the result where the last wait ends within `fuel` turns. -/
def portRead {α : Type} (hba : Controller) (fuel sector sectorCount buffer : ℕ)
    (s : PortState α) : PortState α × Option Bool :=
  let hbaPort := { s.hbaPort with interruptStatus := -1 }
  let cmdHeader := hbaPort.readHeader
  let mem := fillCommand s.mem cmdHeader (readTable cmdHeader) sector sectorCount buffer
  let spin := spinLoop hba.taskFileData spinLimit 0
  if spin = spinLimit then ({ s with mem, hbaPort, issued := false }, some false)
  else
    ({ s with mem, hbaPort := { hbaPort with commandIssue := 1 }, issued := true },
      issueLoop hba fuel 0)

/-! ### `AHCI_Port_Configure` -/

def stopLoop (cmdSts : ℕ → BitVec 32) : ℕ → ℕ → Option ℕ
  | 0, _ => none
  | fuel + 1, n =>
    if cmdSts n &&& hbaPxCmdFR ≠ 0 then stopLoop cmdSts fuel (n + 1)
    else if cmdSts (n + 1) &&& hbaPxCmdCR ≠ 0 then stopLoop cmdSts fuel (n + 2)
    else some (n + 2)

def startLoop (cmdSts : ℕ → BitVec 32) : ℕ → ℕ → Option ℕ
  | 0, _ => none
  | fuel + 1, n =>
    if cmdSts n &&& hbaPxCmdCR ≠ 0 then startLoop cmdSts fuel (n + 1) else some (n + 1)

def portStopCMD {α : Type} (hba : Controller) (fuel : ℕ) (s : PortState α) :
    Option (PortState α × ℕ) :=
  let stopped := { s.hbaPort with cmdSts := hba.cmdSts 0 &&& ~~~hbaPxCmdST }
  let hbaPort := { stopped with cmdSts := hba.cmdSts 1 &&& ~~~hbaPxCmdFRE }
  (stopLoop hba.cmdSts fuel 2).map fun n => ({ s with hbaPort }, n)

def portStartCMD {α : Type} (hba : Controller) (fuel n : ℕ) (s : PortState α) :
    Option (PortState α) :=
  (startLoop hba.cmdSts fuel n).map fun n =>
    let received := { s.hbaPort with cmdSts := hba.cmdSts n ||| hbaPxCmdFRE }
    { s with hbaPort := { received with cmdSts := hba.cmdSts (n + 1) ||| hbaPxCmdST } }

def address (base upper : BitVec 32) : ℕ := base.toNat + upper.toNat * 2 ^ 32

def HBAPort.commandList (port : HBAPort) : ℕ := address port.commandListBase port.commandListBaseUpper

def HBAPort.fisBase (port : HBAPort) : ℕ := address port.fisBaseAddress port.fisBaseAddressUpper

section Configure
variable {α : Type} (pfaRequestPage : Machine α → ℕ × Machine α)

def configureHeader (cmdHeader : ℕ) (s : Machine α) (i : ℕ) : Machine α :=
  let header := cmdHeader + HBACommandHeader.size * i
  let s := { s with mem := storeLE s.mem (header + HBACommandHeader.prdtLength) 2 8 }
  let (cmdTableAddress, s) := pfaRequestPage s
  let address := wrap (cmdTableAddress + i * 2 ^ 8)
  let mem := writeAll header [
    ⟨HBACommandHeader.commandTableBaseAddress, 4, address⟩,
    ⟨HBACommandHeader.commandTableBaseAddressUpper, 4, address >>> 32⟩] s.mem
  { s with mem := memSet mem cmdTableAddress 0 256 }

def configureHeaders (cmdHeader : ℕ) (n : ℕ) (s : Machine α) : Machine α :=
  (List.range n).foldl (configureHeader pfaRequestPage cmdHeader) s

def configureBases (s : PortState α) : PortState α :=
  let (newBase, r) := pfaRequestPage s.toMachine
  let listed := { s.hbaPort with
    commandListBase := BitVec.ofNat 32 newBase
    commandListBaseUpper := BitVec.ofNat 32 (newBase >>> 32) }
  let (fisBase, r) := pfaRequestPage r
  let hbaPort := { listed with
    fisBaseAddress := BitVec.ofNat 32 fisBase
    fisBaseAddressUpper := BitVec.ofNat 32 (fisBase >>> 32) }
  { s with mem := memSet r.mem fisBase 0 256, alloc := r.alloc, hbaPort }

/-- The port as it is left, where the controller stops and starts within `fuel` polls. -/
def portConfigure (hba : Controller) (fuel : ℕ) (s : PortState α) : Option (PortState α) :=
  (portStopCMD hba fuel s).bind fun (s, n) =>
    let s := configureBases pfaRequestPage s
    let r := configureHeaders pfaRequestPage s.hbaPort.commandList 32 s.toMachine
    portStartCMD hba fuel n { s with mem := r.mem, alloc := r.alloc }

end Configure

end Rizzos.Ahci
