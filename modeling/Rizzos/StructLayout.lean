import Rizzos.ByteMemory

set_option autoImplicit false

/-!
# Layout of C structs

Each member is placed at the next multiple of its alignment, and the struct is
padded to a multiple of the largest one, as the System V ABI for x86-64 has it.
-/
namespace Rizzos.StructLayout
open ByteMemory

inductive CType where
  | uint8
  | uint16
  | uint32
  | uint64
  | array (element : CType) (length : ℕ)

def CType.size : CType → ℕ
  | .uint8 => 1
  | .uint16 => 2
  | .uint32 => 4
  | .uint64 => 8
  | .array element length => element.size * length

def CType.align : CType → ℕ
  | .uint8 => 1
  | .uint16 => 2
  | .uint32 => 4
  | .uint64 => 8
  | .array element _ => element.align

def alignUp (offset align : ℕ) : ℕ := (offset + align - 1) / align * align

def place (offset : ℕ) : List CType → List ℕ × ℕ
  | [] => ([], offset)
  | t :: rest =>
    let start := alignUp offset t.align
    let (offsets, finish) := place (start + t.size) rest
    (start :: offsets, finish)

def offsetOf (members : List CType) (i : ℕ) : ℕ := (place 0 members).1.getD i 0

def structAlign (members : List CType) : ℕ := (members.map CType.align).foldr max 1

def structSize (members : List CType) : ℕ := alignUp (place 0 members).2 (structAlign members)

def loadMember (m : Mem) (a : ℕ) (members : List CType) (i : ℕ) : ℕ :=
  loadLE m (a + offsetOf members i) (members.getD i .uint8).size

def loadBytes (m : Mem) (a n : ℕ) : List Byte := (List.range n).map fun i => load8 m (a + i)

def loadMemberBytes (m : Mem) (a : ℕ) (members : List CType) (i : ℕ) : List Byte :=
  loadBytes m (a + offsetOf members i) (members.getD i .uint8).size

end Rizzos.StructLayout
