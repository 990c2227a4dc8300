import Rizzos.InterruptController

set_option autoImplicit false

/-!
# The interrupts of the running kernel

An interrupt that the controllers let through comes with a vector, the vector selects a gate, and
the gate names a function. The gates are those that `InitializeInterrupts` installed.
-/
namespace Rizzos.KernelInterrupts
open ByteMemory Memory PortAccess PS2Controller InterruptTable InterruptController PageFrameAllocator

inductive Handler where
  | pageFault
  | doubleFault
  | gpFault
  | keyboard
  | mouse
  | pit
deriving DecidableEq, Repr

def handlers : List Handler := [.pageFault, .doubleFault, .gpFault, .keyboard, .mouse, .pit]

def Handler.irq : Handler → Option ℕ
  | .pit => some 0
  | .keyboard => some 1
  | .mouse => some 12
  | _ => none

/-- The calls of `InitializeInterrupts`, with the addresses that the linker gave the functions. -/
def installs (address : Handler → BitVec 64) : List Install :=
  [⟨0xE, address .pageFault⟩, ⟨0x8, address .doubleFault⟩, ⟨0xD, address .gpFault⟩,
    ⟨0x21, address .keyboard⟩, ⟨0x2C, address .mouse⟩, ⟨0x20, address .pit⟩]

structure GDTEntry where
  limit0 : BitVec 16
  base0 : BitVec 16
  base1 : Byte
  accessByte : Byte
  limit1Flag : Byte
  base2 : Byte
deriving DecidableEq, Repr

def gDefaultGDT : List GDTEntry :=
  [⟨0x0000, 0x0000, 0x00, 0x00, 0x00, 0x00⟩,
   ⟨0x0000, 0x0000, 0x00, 0x9a, 0xa0, 0x00⟩,
   ⟨0x0000, 0x0000, 0x00, 0x92, 0xa0, 0x00⟩,
   ⟨0x0000, 0x0000, 0x00, 0x00, 0x00, 0x00⟩,
   ⟨0x0000, 0x0000, 0x00, 0x9a, 0xa0, 0x00⟩,
   ⟨0x0000, 0x0000, 0x00, 0x92, 0xa0, 0x00⟩]

/-- A present segment of code for ring 0, in 64-bit mode. -/
def GDTEntry.IsKernelCode (e : GDTEntry) : Prop :=
  e.accessByte &&& 0b11111000 = 0b10011000 ∧ e.limit1Flag &&& 0b01100000 = 0b00100000

/-- The gate of a vector leads to the function, with interrupts off, in a segment that the
    processor can run it in. -/
structure LeadsTo (idtr : IDTR) (m : Mem) (v : Byte) (address : BitVec 64) : Prop where
  offset_eq : idtGetOffset (descEntry idtr v) m = address
  type_eq : typeDplP m (descEntry idtr v) = idtTdplpInterruptGate
  code : ∃ e, gDefaultGDT[selector m (descEntry idtr v) / 8]? = some e ∧ e.IsKernelCode

def startTable (address : Handler → BitVec 64) (s : Machine Pfa) : IDTR × Mem :=
  ((idtInitInterruptTable s).1,
    setHandlers (idtInitInterruptTable s).1 (installs address) (idtInitInterruptTable s).2.mem)

section Gates
variable {address : Handler → BitVec 64} {s : Machine Pfa}

theorem installs_leadsTo {idtr : IDTR} (hpage : InPage idtr) (m : Mem) {v : Byte} {k : Handler}
    (h : lastInstalled (installs address) v = some (address k)) :
    LeadsTo idtr (setHandlers idtr (installs address) m) v (address k) := by
  have hgate := gate_setHandlers hpage (installs address) m v
  generalize setHandlers idtr (installs address) m = table at hgate ⊢
  rw [h] at hgate
  refine ⟨hgate.offset_eq (address k) rfl, hgate.type_eq,
    ⟨0x0000, 0x0000, 0x00, 0x9a, 0xa0, 0x00⟩, ?_, by decide, by decide⟩
  rw [hgate.selector_eq (address k) rfl]
  rfl

theorem startTable_leadsTo {v : Byte} {k : Handler}
    (h : lastInstalled (installs address) v = some (address k)) :
    LeadsTo (startTable address s).1 (startTable address s).2 v (address k) := by
  have hpage := idtInitInterruptTable_inPage s
  unfold startTable
  dsimp only
  generalize (idtInitInterruptTable s).1 = idtr at hpage ⊢
  exact installs_leadsTo hpage _ h

def serving (master slave : Byte) : Pics where
  master := { startedPics.master with inService := master }
  slave := { startedPics.slave with inService := slave }

theorem startedPics_accept (irq : ℕ) : startedPics.accept irq =
    if irq = 0 then some (0x20, serving 1 0)
    else if irq = 1 then some (0x21, serving 2 0)
    else if irq = 12 then some (0x2C, serving 4 16)
    else none := by
  by_cases hlt : irq < 16
  · interval_cases irq <;> decide
  · rw [Pics.accept, if_neg (by omega), if_neg (by omega), if_neg (by omega), if_neg (by omega),
      if_neg (by omega)]

/-- A line is let through when a function serves it, and its vector leads to that function. -/
theorem startPorts_gates (address : Handler → BitVec 64) (s : Machine Pfa) (p : Pics) (dev : Device)
    (a2 : Byte) (t : Trace) (irq : ℕ) :
    (((replay Pics.step p (startPorts dev a2 t)).accept irq).isSome ↔
      ∃ k : Handler, k.irq = some irq) ∧
    ∀ v q, (replay Pics.step p (startPorts dev a2 t)).accept irq = some (v, q) →
      ∃ k : Handler, k.irq = some irq ∧
        LeadsTo (startTable address s).1 (startTable address s).2 v (address k) := by
  rw [replay_startPorts, startedPics_accept]
  by_cases h0 : irq = 0
  · subst h0
    refine ⟨iff_of_true rfl ⟨.pit, rfl⟩, fun v q h => ⟨.pit, rfl, ?_⟩⟩
    obtain ⟨rfl, -⟩ := Prod.mk.inj (Option.some.inj h)
    exact startTable_leadsTo rfl
  by_cases h1 : irq = 1
  · subst h1
    refine ⟨iff_of_true rfl ⟨.keyboard, rfl⟩, fun v q h => ⟨.keyboard, rfl, ?_⟩⟩
    obtain ⟨rfl, -⟩ := Prod.mk.inj (Option.some.inj h)
    exact startTable_leadsTo rfl
  by_cases h12 : irq = 12
  · subst h12
    refine ⟨iff_of_true rfl ⟨.mouse, rfl⟩, fun v q h => ⟨.mouse, rfl, ?_⟩⟩
    obtain ⟨rfl, -⟩ := Prod.mk.inj (Option.some.inj h)
    exact startTable_leadsTo rfl
  rw [if_neg h0, if_neg h1, if_neg h12]
  refine ⟨iff_of_false (by simp) ?_, fun v q h => by cases h⟩
  rintro ⟨k, hk⟩
  cases k <;> simp [Handler.irq] at hk <;> omega

end Gates

end Rizzos.KernelInterrupts
