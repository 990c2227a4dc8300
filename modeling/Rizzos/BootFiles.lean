import Mathlib.Data.BitVec
import Rizzos.ByteMemory

set_option autoImplicit false

/-! The files that the bootloader opens, and the console font. A call of the firmware is
modelled by what it returns. -/
namespace Rizzos.BootFiles
open ByteMemory

abbrev Status := BitVec 64

def efiError (status : Status) : Bool := status.toInt < 0

/-- The pointers that a step produces and later steps dereference. -/
inductive Pointer where
  | kernelRoot
  | kernel
  | header
  | phdrs
  | fontRoot
deriving DecidableEq, Repr

/-- What the calls of `LoadFile` return. -/
structure FileReplies where
  handleProtocol : Status
  openRoot : ℕ
  openFile : Status
  loadedFile : ℕ

/-- The file, and the pointers dereferenced. That there is no root directory is only
    reported. -/
def loadFile (root : Pointer) (r : FileReplies) : ℕ × List Pointer :=
  if efiError r.handleProtocol then (0, [])
  else if efiError r.openFile then (0, [root])
  else (r.loadedFile, [root])

structure Psf1Header where
  magic0 : Byte
  magic1 : Byte
  mode : Byte
  charsize : Byte
deriving DecidableEq, Repr

def psf1Magic0 : Byte := 0x36#8
def psf1Magic1 : Byte := 0x04#8

/-- `PSF1_FONT`, with the bytes from the address of the glyph buffer on. -/
structure Psf1Font where
  psfHeader : Psf1Header
  glyphBuffer : ℤ → Byte

/-- What the calls of `LoadPSF1Font` return, and what they read. -/
structure FontReplies where
  file : FileReplies
  allocateHeader : Status
  readHeader : Status
  header : Psf1Header
  setPosition : Status
  allocateGlyphs : Status
  readGlyphs : Status
  glyphs : ℤ → Byte
  allocateFont : Status

def glyphBufferSize (fontHeader : Psf1Header) : ℕ :=
  if fontHeader.mode = 1 then fontHeader.charsize.toNat * 512 else fontHeader.charsize.toNat * 256

def loadPsf1Font (r : FontReplies) : Option Psf1Font × List Pointer :=
  let (fontFile, derefs) := loadFile .fontRoot r.file
  if fontFile = 0 then (none, derefs)
  else if efiError r.allocateHeader then (none, derefs)
  else if efiError r.readHeader then (none, derefs)
  else if r.header.magic0 ≠ psf1Magic0 ∨ r.header.magic1 ≠ psf1Magic1 then (none, derefs)
  else if efiError r.setPosition then (none, derefs)
  else if efiError r.allocateGlyphs then (none, derefs)
  else if efiError r.readGlyphs then (none, derefs)
  else if efiError r.allocateFont then (none, derefs)
  else (some ⟨r.header, r.glyphs⟩, derefs)

end Rizzos.BootFiles
