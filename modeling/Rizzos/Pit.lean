import Rizzos.ByteMemory

set_option autoImplicit false

/-! The interval timer of `scheduling/pit.c`, and the side of the chip. -/
namespace Rizzos.Pit
open ByteMemory

def pitBaseFrequency : BitVec 64 := 1193182

/-- Channel 0 of the chip takes the low byte of its reload value and then the high one. -/
structure Chip where
  lowByte : Option Byte
  reload : BitVec 16
deriving DecidableEq, Repr

def Chip.write (chip : Chip) (value : Byte) : Chip :=
  match chip.lowByte with
  | none => { chip with lowByte := some value }
  | some low => ⟨none, (value ++ low : BitVec (8 + 8))⟩

/-- The rate in hertz. A reload value of zero counts as `65536`. -/
def Chip.frequency (chip : Chip) : ℕ :=
  pitBaseFrequency.toNat / if chip.reload = 0 then 65536 else chip.reload.toNat

structure Timer where
  divisor : BitVec 16
  chip : Chip
deriving DecidableEq, Repr

def initialTimer (reload : BitVec 16) : Timer := ⟨65535, ⟨none, reload⟩⟩

/-- The other ports are not those of channel 0. -/
def ioOutByte (port : BitVec 16) (value : Byte) (s : Timer) : Timer :=
  if port = 0x40 then { s with chip := s.chip.write value } else s

def ioWait (s : Timer) : Timer := ioOutByte 0x80 0 s

def lowByte (divisor : BitVec 16) : Byte := (divisor &&& 0x00ff).setWidth 8

/-- `(uint8_t)(divisor & 0xff00) >> 8`: the cast comes before the shift of the `int`. -/
def highByte (divisor : BitVec 16) : Byte :=
  (((divisor &&& 0xff00).setWidth 8).setWidth 32 >>> 8).setWidth 8

def pitSetDivisor (divisor : BitVec 16) (s : Timer) : Timer :=
  let divisor := if divisor < 100 then 100 else divisor
  let s := { s with divisor := divisor }
  let s := ioOutByte 0x40 (lowByte divisor) s
  let s := ioWait s
  ioOutByte 0x40 (highByte divisor) s

def pitGetFrequency (s : Timer) : BitVec 64 := pitBaseFrequency / s.divisor.setWidth 64

/-- The quotient is converted to 16 bits by the call. -/
def pitSetFrequency (frequency : BitVec 64) (s : Timer) : Timer :=
  pitSetDivisor ((pitBaseFrequency / frequency).setWidth 16) s

inductive PitCall where
  | setDivisor (divisor : BitVec 16)
  | setFrequency (frequency : BitVec 64) (pos : 0 < frequency)

def pitStep (s : Timer) : PitCall → Timer
  | .setDivisor divisor => pitSetDivisor divisor s
  | .setFrequency frequency _ => pitSetFrequency frequency s

/-- The divisor that a call is to set, if it names a frequency: the nearest one in the range. -/
def PitCall.wanted : PitCall → Option ℕ
  | .setDivisor _ => none
  | .setFrequency frequency _ => some (max 100 (min 65535 (1193182 / frequency.toNat)))

/-- The state behind a call: chip and software agree, on the divisor that was wanted. -/
structure InStep (call : PitCall) (s : Timer) : Prop where
  reload : s.chip.reload = s.divisor
  rate : (pitGetFrequency s).toNat = s.chip.frequency
  divisor : ∀ wanted ∈ call.wanted, s.divisor.toNat = wanted

def RunInStep : Timer → List PitCall → Prop
  | _, [] => True
  | s, call :: calls => InStep call (pitStep s call) ∧ RunInStep (pitStep s call) calls

def PitCall.Fits : PitCall → Prop
  | .setDivisor divisor => divisor.toNat < 256
  | .setFrequency frequency _ => 1193182 / frequency.toNat < 256

section Bytes

theorem highByte_eq (divisor : BitVec 16) : highByte divisor = 0#8 := by
  have hmask : ∀ i < 8, (0xff00#16).getLsbD i = false := by decide
  have hcast : (divisor &&& 0xff00#16).setWidth 8 = 0#8 := by
    apply BitVec.eq_of_getLsbD_eq
    intro i hi
    rw [BitVec.getLsbD_setWidth, BitVec.getLsbD_and, hmask i hi]
    simp
  change (((divisor &&& 0xff00#16).setWidth 8).setWidth 32 >>> 8).setWidth 8 = 0#8
  rw [hcast]
  rfl

theorem lowByte_toNat (divisor : BitVec 16) : (lowByte divisor).toNat = divisor.toNat % 256 := by
  have hmask : (divisor &&& 0x00ff#16).toNat = divisor.toNat % 256 := by
    rw [BitVec.toNat_and]
    exact Nat.and_two_pow_sub_one_eq_mod _ 8
  change ((divisor &&& 0x00ff#16).setWidth 8).toNat = _
  rw [BitVec.toNat_setWidth, hmask]
  omega

theorem append_toNat (low : Byte) : (0#8 ++ low : BitVec (8 + 8)).toNat = low.toNat := by
  rw [BitVec.toNat_append]
  simp

end Bytes

section Calls
variable {s : Timer}

theorem pitSetDivisor_eq (hready : s.chip.lowByte = none) (divisor : BitVec 16) :
    pitSetDivisor divisor s =
      ⟨if divisor < 100 then 100 else divisor,
        ⟨none, (0#8 ++ lowByte (if divisor < 100 then 100 else divisor) : BitVec (8 + 8))⟩⟩ := by
  unfold pitSetDivisor
  dsimp only
  rw [highByte_eq]
  simp [ioOutByte, ioWait, Chip.write, hready]

theorem pitStep_ready (hready : s.chip.lowByte = none) (call : PitCall) :
    (pitStep s call).chip.lowByte = none := by
  cases call with
  | setDivisor divisor => rw [pitStep, pitSetDivisor_eq hready]
  | setFrequency frequency _ => rw [pitStep, pitSetFrequency, pitSetDivisor_eq hready]

theorem pitSetDivisor_divisor (hready : s.chip.lowByte = none) (divisor : BitVec 16) :
    (pitSetDivisor divisor s).divisor.toNat = max 100 divisor.toNat := by
  rw [pitSetDivisor_eq hready]
  dsimp only
  split
  · rename_i hlt
    have hlt : divisor.toNat < 100 := hlt
    change 100 = _
    omega
  · rename_i hge
    have hge : ¬ divisor.toNat < 100 := hge
    omega

theorem pitSetDivisor_pos (hready : s.chip.lowByte = none) (divisor : BitVec 16) :
    0 < (pitSetDivisor divisor s).divisor.toNat := by
  rw [pitSetDivisor_divisor hready]
  omega

theorem pitSetDivisor_reload (hready : s.chip.lowByte = none) (divisor : BitVec 16) :
    (pitSetDivisor divisor s).chip.reload.toNat =
      (pitSetDivisor divisor s).divisor.toNat % 256 := by
  rw [pitSetDivisor_eq hready]
  exact (append_toNat _).trans (lowByte_toNat _)

theorem pitSetDivisor_reload_iff (hready : s.chip.lowByte = none) (divisor : BitVec 16) :
    (pitSetDivisor divisor s).chip.reload = (pitSetDivisor divisor s).divisor ↔
      divisor.toNat < 256 := by
  have hreload := pitSetDivisor_reload hready divisor
  have hdivisor := pitSetDivisor_divisor hready divisor
  rw [BitVec.toNat_eq]
  omega

theorem rate_of_reload (hreload : s.chip.reload = s.divisor) (hpos : 0 < s.divisor.toNat) :
    (pitGetFrequency s).toNat = s.chip.frequency := by
  have hlt := s.divisor.isLt
  have hne : s.divisor ≠ 0 := by
    intro h
    rw [h] at hpos
    exact absurd hpos (by decide)
  rw [pitGetFrequency, BitVec.toNat_udiv, BitVec.toNat_setWidth, Chip.frequency, hreload,
    if_neg hne, Nat.mod_eq_of_lt (by omega)]

theorem setFrequency_quotient (frequency : BitVec 64) :
    ((pitBaseFrequency / frequency).setWidth 16).toNat = 1193182 / frequency.toNat % 65536 := by
  rw [BitVec.toNat_setWidth, BitVec.toNat_udiv]
  rfl

/-- One call leaves chip and software in step exactly when its divisor fits a byte. -/
theorem inStep_iff (hready : s.chip.lowByte = none) (call : PitCall) :
    InStep call (pitStep s call) ↔ call.Fits := by
  cases call with
  | setDivisor divisor =>
    have hreload := pitSetDivisor_reload_iff hready divisor
    have hpos := pitSetDivisor_pos hready divisor
    constructor
    · exact fun h => hreload.1 h.reload
    · intro hfits
      have hagree := hreload.2 hfits
      exact ⟨hagree, rate_of_reload hagree hpos, fun wanted h => absurd h (Option.not_mem_none _)⟩
  | setFrequency frequency _ =>
    have hreload := pitSetDivisor_reload_iff hready ((pitBaseFrequency / frequency).setWidth 16)
    have hdivisor := pitSetDivisor_divisor hready ((pitBaseFrequency / frequency).setWidth 16)
    have hpos := pitSetDivisor_pos hready ((pitBaseFrequency / frequency).setWidth 16)
    rw [setFrequency_quotient] at hreload hdivisor
    change InStep _ (pitSetDivisor _ s) ↔ 1193182 / frequency.toNat < 256
    have hwanted : PitCall.wanted (.setFrequency frequency ‹_›) =
        some (max 100 (min 65535 (1193182 / frequency.toNat))) := rfl
    generalize 1193182 / frequency.toNat = quotient at hreload hdivisor hwanted ⊢
    constructor
    · intro h
      have hsmall := hreload.1 h.reload
      have hset := h.divisor _ hwanted
      omega
    · intro hfits
      have hagree := hreload.2 (by omega)
      refine ⟨hagree, rate_of_reload hagree hpos, ?_⟩
      intro wanted h
      rw [hwanted] at h
      rw [hdivisor, ← Option.some.inj h]
      omega

theorem runInStep_iff (calls : List PitCall) (hready : s.chip.lowByte = none) :
    RunInStep s calls ↔ ∀ call ∈ calls, call.Fits := by
  induction calls generalizing s with
  | nil => simp [RunInStep]
  | cons call calls ih =>
    rw [RunInStep, inStep_iff hready, ih (pitStep_ready hready call), List.forall_mem_cons]

end Calls

/-- From boot on, the timer runs at the rate that the software takes it to have as long as no
    divisor needs more than a byte. -/
theorem initialTimer_inStep_iff (reload : BitVec 16) (calls : List PitCall) :
    RunInStep (initialTimer reload) calls ↔ ∀ call ∈ calls, call.Fits :=
  runInStep_iff calls rfl

/-- The divisor of the kernel, `2000`, reaches the chip as `208`. -/
theorem not_inStep_kernel : ¬ RunInStep (initialTimer 0) [.setDivisor 2000] := by
  intro h
  exact absurd h.1.reload (by decide)

end Rizzos.Pit
