import Rizzos.BootFiles
import Rizzos.ConfigurationTable
import Rizzos.ProgramHeaderWalk

set_option autoImplicit false

/-! The steps of `efi_main`, from the kernel file to the jump. A failed step is reported on the
screen and the next one follows. -/
namespace Rizzos.BootSequence
open ByteMemory BootFiles ProgramHeaderWalk
open ConfigurationTable (ConfigTable findRsdp)
open ElfLoader (ElfHeader ProgramHeader elfHeaderAt isElfFHeader programHeaderAt ptLoad readFile
  sizeofElfHeader)

structure ReadReply where
  status : Status
  count : ℕ

/-- What the firmware returns to `efi_main`. The calls for segments are numbered. -/
structure Firmware where
  kernelFile : FileReplies
  readHeader : ReadReply
  seekTable : Status
  allocateTable : Status
  table : ℕ
  readTable : ReadReply
  allocatePages : ℕ → Status
  seekSegment : ℕ → Status
  readSegment : ℕ → ReadReply
  locateProtocol : Status
  font : FontReplies
  memoryMap : ℕ
  numberOfTableEntries : ℕ
  configTable : ℕ → ConfigTable
  exitBootServices : Status

structure SegmentLoad where
  header : ProgramHeader
  allocate : Status
  seek : Status
  read : ReadReply

/-- Memory, the position in the kernel file, and the histories of segments loaded and of
    pointers dereferenced. -/
structure Boot where
  mem : Mem
  position : ℕ
  segments : List SegmentLoad
  derefs : List Pointer

def Boot.deref (s : Boot) (pointers : List Pointer) : Boot :=
  { s with derefs := s.derefs ++ pointers }

structure BootData where
  consoleFont : Option Psf1Font
  mMap : ℕ
  rsdp : ℕ

inductive Outcome where
  | jump (entry : ℕ) (bootData : BootData)
  | returned (status : Status)

section Run
variable (fw : Firmware) (file : List Byte)

def kernel : ℕ := (loadFile .kernelRoot fw.kernelFile).1

def readKernel (reply : ReadReply) (size buffer : ℕ) (s : Boot) : Boot :=
  { s with mem := readFile file s.position (min reply.count size) buffer s.mem
           position := s.position + min reply.count size }

def seekKernel (status : Status) (position : ℕ) (s : Boot) : Boot :=
  { s with position := if efiError status then s.position else position }

/-- Null when one of the three calls fails. -/
def readElfProgramHeader (header : ℕ) (s : Boot) : ℕ × Boot :=
  let size := allocatedSize (elfHeaderAt s.mem header)
  let s := seekKernel fw.seekTable (elfHeaderAt s.mem header).e_phoff (s.deref [.kernel, .header])
  if efiError fw.seekTable then (0, s)
  else if efiError fw.allocateTable then (0, s)
  else
    let s := readKernel file fw.readTable size fw.table (s.deref [.kernel])
    if efiError fw.readTable.status then (0, s) else (fw.table, s)

/-- The body of the loop over the program headers. No result of a call is looked at. -/
def loadSegment (phdr : ℕ) (s : Boot) : Boot :=
  let s := s.deref [.phdrs]
  let header := programHeaderAt s.mem phdr
  if header.p_type = ptLoad then
    let k := s.segments.length
    let s := seekKernel (fw.seekSegment k) header.p_offset (s.deref [.kernel])
    let s := readKernel file (fw.readSegment k) header.p_filesz header.p_paddr (s.deref [.kernel])
    { s with segments := s.segments ++
        [⟨header, fw.allocatePages k, fw.seekSegment k, fw.readSegment k⟩] }
  else s

/-- The first steps, up to the read of the header. Where `header` points to was never set. -/
def startBoot (header : ℕ) (m : Mem) : Boot :=
  let derefs := (loadFile .kernelRoot fw.kernelFile).2 ++ [.kernel, .kernel, .header]
  readKernel file fw.readHeader sizeofElfHeader header ⟨m, 0, [], derefs⟩

def loadSegments (header : ℕ) (m : Mem) (fuel : ℕ) : Option Boot :=
  let (phdrs, s) := readElfProgramHeader fw file header (startBoot fw file header m)
  headersLoop (fun s => elfHeaderAt s.mem header) (loadSegment fw file) phdrs fuel phdrs s

/-- What follows the loop. `EFI_ERROR(24)` is no status but a test of one. -/
def finishBoot (header : ℕ) (s : Boot) : Outcome × Boot :=
  if efiError fw.locateProtocol then (.returned (if efiError 24 then 1 else 0), s)
  else
    let (font, derefs) := loadPsf1Font fw.font
    (.jump (elfHeaderAt s.mem header).e_entry ⟨font, fw.memoryMap,
      (findRsdp s.mem fw.configTable fw.numberOfTableEntries).rsdp⟩, s.deref (derefs ++ [.header]))

def efiMain (header : ℕ) (m : Mem) (fuel : ℕ) : Option (Outcome × Boot) :=
  (loadSegments fw file header m fuel).map (finishBoot fw header)

section Stops
variable (header : ℕ) (m : Mem)

def readHeader : ElfHeader := elfHeaderAt (startBoot fw file header m).mem header

/-- Every step that the kernel depends on gave what was asked of it. -/
structure Succeeded (header : ElfHeader) (segments : List SegmentLoad) : Prop where
  opened : fw.kernelFile.openRoot ≠ 0 ∧ kernel fw ≠ 0
  header_read : ¬ efiError fw.readHeader.status ∧ fw.readHeader.count = sizeofElfHeader
  verified : isElfFHeader header
  table_sought : ¬ efiError fw.seekTable
  table_allocated : ¬ efiError fw.allocateTable
  table_read : ¬ efiError fw.readTable.status ∧ fw.readTable.count = allocatedSize header
  segment_allocated : ∀ load ∈ segments, ¬ efiError load.allocate
  segment_sought : ∀ load ∈ segments, ¬ efiError load.seek
  segment_read : ∀ load ∈ segments,
    ¬ efiError load.read.status ∧ load.read.count = load.header.p_filesz
  font : fw.font.file.openRoot ≠ 0 ∧ (loadPsf1Font fw.font).1.isSome
  map : fw.memoryMap ≠ 0
  exited : ¬ efiError fw.exitBootServices

/-- The step that should have produced the pointer failed. -/
def Failed : Pointer → Prop
  | .kernelRoot => fw.kernelFile.openRoot = 0
  | .kernel => kernel fw = 0
  | .header => efiError fw.readHeader.status ∨ fw.readHeader.count ≠ sizeofElfHeader
  | .phdrs => efiError fw.seekTable ∨ efiError fw.allocateTable ∨ efiError fw.readTable.status
  | .fontRoot => fw.font.file.openRoot = 0

/-- The boot ends in the kernel after steps that all succeeded, or else in an error status; and
    it used no pointer that a failed step owed. -/
def Ends : Outcome × Boot → Prop
  | (.jump entry _, s) => entry = (elfHeaderAt s.mem header).e_entry ∧
    Succeeded fw (readHeader fw file header m) s.segments ∧ ∀ p ∈ s.derefs, ¬ Failed fw p
  | (.returned status, s) => efiError status ∧ ∀ p ∈ s.derefs, ¬ Failed fw p

def BootStops : Prop :=
  ∃ fuel result, efiMain fw file header m fuel = some result ∧ Ends fw file header m result

def Loads (s : Boot) : Prop := ∃ fuel, loadSegments fw file header m fuel = some s

variable {fw file header m}

theorem Succeeded.not_failed {h : ElfHeader} {segments : List SegmentLoad}
    (hs : Succeeded fw h segments) (p : Pointer) : ¬ Failed fw p := by
  cases p with
  | kernelRoot => exact hs.opened.1
  | kernel => exact hs.opened.2
  | header =>
    rintro (hfailed | hshort)
    · exact hs.header_read.1 hfailed
    · exact hshort hs.header_read.2
  | phdrs =>
    rintro (hfailed | hfailed | hfailed)
    · exact hs.table_sought hfailed
    · exact hs.table_allocated hfailed
    · exact hs.table_read.1 hfailed
  | fontRoot => exact hs.font.1

/-- The loop ends, in one state only. -/
theorem exists_loads : ∃ s, Loads fw file header m s ∧ ∀ s', Loads fw file header m s' → s' = s := by
  obtain ⟨n, hend⟩ : ∃ n, EndsAt (fun s : Boot => elfHeaderAt s.mem header) (loadSegment fw file)
      (readElfProgramHeader fw file header (startBoot fw file header m)).1
      (readElfProgramHeader fw file header (startBoot fw file header m)).2 n := exists_endsAt _
  refine ⟨_, ⟨n + 1, (headersLoop_eq hend _).trans (if_pos (Nat.lt_succ_self n))⟩, ?_⟩
  rintro s' ⟨fuel, hs'⟩
  have heq := (headersLoop_eq hend fuel).symm.trans hs'
  split at heq
  · exact (Option.some.inj heq).symm
  · exact absurd heq (Option.some_ne_none s').symm

theorem bootStops_iff_ends : BootStops fw file header m ↔
    ∃ s, Loads fw file header m s ∧ Ends fw file header m (finishBoot fw header s) := by
  constructor
  · rintro ⟨fuel, result, hrun, hends⟩
    obtain ⟨s, hs, rfl⟩ := Option.map_eq_some_iff.1 hrun
    exact ⟨s, ⟨fuel, hs⟩, hends⟩
  · rintro ⟨s, ⟨fuel, hs⟩, hends⟩
    exact ⟨fuel, _, Option.map_eq_some_iff.2 ⟨s, hs, rfl⟩, hends⟩

/-- With a screen, no failure keeps the boot from the jump. -/
theorem finishBoot_jumps (hscreen : efiError fw.locateProtocol = false) (s : Boot) :
    Ends fw file header m (finishBoot fw header s) ↔
      Succeeded fw (readHeader fw file header m) s.segments := by
  rw [finishBoot, if_neg (ne_true_of_eq_false hscreen)]
  constructor
  · exact fun h => h.2.1
  · exact fun h => ⟨rfl, h, fun p _ => h.not_failed p⟩

theorem finishBoot_returns (hscreen : efiError fw.locateProtocol = true) (s : Boot) :
    ¬ Ends fw file header m (finishBoot fw header s) := by
  rw [finishBoot, if_pos hscreen]
  intro h
  exact absurd h.1 (by decide)

end Stops
end Run

/-- No failure is acted upon, so the boot is right when nothing fails. -/
theorem bootStops_iff_succeeded (fw : Firmware) (file : List Byte) (header : ℕ) (m : Mem) :
    BootStops fw file header m ↔ efiError fw.locateProtocol = false ∧
      ∃ s, Loads fw file header m s ∧
        Succeeded fw (readHeader fw file header m) s.segments := by
  rw [bootStops_iff_ends]
  cases hscreen : efiError fw.locateProtocol with
  | false => simp only [finishBoot_jumps hscreen, true_and]
  | true =>
    refine iff_of_false ?_ (fun h => absurd h.1 (by decide))
    rintro ⟨s, -, hends⟩
    exact finishBoot_returns hscreen s hends

/-- A firmware that opens no file, and otherwise reports success. -/
def noKernel : Firmware where
  kernelFile := ⟨0x8000000000000003, 0, 0, 0⟩
  readHeader := ⟨0, 0⟩
  seekTable := 0
  allocateTable := 0
  table := 0x1000
  readTable := ⟨0, 0⟩
  allocatePages _ := 0
  seekSegment _ := 0
  readSegment _ := ⟨0, 0⟩
  locateProtocol := 0
  font := ⟨⟨0x8000000000000003, 0, 0, 0⟩, 0, 0, ⟨0, 0, 0, 0⟩, 0, 0, 0, fun _ => 0, 0⟩
  memoryMap := 0
  numberOfTableEntries := 0
  configTable _ := ⟨ConfigurationTable.acpi20TableGuid, 0⟩
  exitBootServices := 0

/-- Without a kernel file, the boot jumps to what `header` happens to point to. -/
theorem not_bootStops_noKernel : ¬ BootStops noKernel [] 0x2000 fun _ => 0#8 := by
  rw [bootStops_iff_ends]
  rintro ⟨s, -, hends⟩
  exact ((finishBoot_jumps (by decide) s).1 hends).opened.2 (by decide)

end Rizzos.BootSequence
