import Rizzos.WordFill

set_option autoImplicit false

/-! The fill functions and the memory-map total of `memory.c`. -/
namespace Rizzos.Memory
open ByteMemory WordFill

def frameSize : ℕ := 0x1000

/-- Physical memory together with the statics of whatever allocates its frames. -/
structure Machine (α : Type) where
  mem : Mem
  alloc : α

/-- The members of an EFI memory descriptor that the kernel reads. -/
structure EFIMemoryDescriptor where
  type : ℕ
  physAddr : ℕ
  numPages : ℕ
deriving DecidableEq, Repr

def memGetTotalSizeLoop : List EFIMemoryDescriptor → ℕ → ℕ
  | [], memorySize => memorySize
  | desc :: rest, memorySize =>
    memGetTotalSizeLoop rest (wrap (memorySize + wrap (desc.numPages * 4096)))

/-- `memorySize` is the static of the function: a positive value is returned as it is. -/
def memGetTotalSize (memorySize : ℕ) (mmap : List EFIMemoryDescriptor) : ℕ :=
  if memorySize > 0 then memorySize else memGetTotalSizeLoop mmap memorySize

theorem memGetTotalSizeLoop_eq (mmap : List EFIMemoryDescriptor) (memorySize : ℕ)
    (h : memorySize < 2 ^ 64) : memGetTotalSizeLoop mmap memorySize =
      wrap (memorySize + 4096 * (mmap.map (·.numPages)).sum) := by
  induction mmap generalizing memorySize with
  | nil => simp [memGetTotalSizeLoop, wrap_of_lt h]
  | cons desc rest ih =>
    rw [memGetTotalSizeLoop, ih _ (wrap_lt _), wrap_wrap_add]
    simp only [wrap, List.map_cons, List.sum_cons]
    omega

def memSetLoop (start : ℕ) (value : Byte) : ℕ → ℕ → Mem → Mem
  | 0, _, m => m
  | n + 1, i, m => memSetLoop start value n (i + 1) (store8 m (start + i) value)

def memSet (m : Mem) (start : ℕ) (value : Byte) (num : ℕ) : Mem := memSetLoop start value num 0 m

theorem fillWords_byte_succ (m : Mem) (start n : ℕ) (value : Byte) :
    fillWords 1 start value.toNat (n + 1) m =
      store8 (fillWords 1 start value.toNat n m) (start + n) value := by
  rw [fillWords, Nat.mul_one, storeLE, BitVec.ofNat_toNat, BitVec.setWidth_eq]
  rfl

theorem memSetLoop_eq (start : ℕ) (value : Byte) (n i : ℕ) (m : Mem) :
    memSetLoop start value n i (fillWords 1 start value.toNat i m) =
      fillWords 1 start value.toNat (i + n) m := by
  induction n generalizing i with
  | zero => rfl
  | succ n ih =>
    rw [memSetLoop, ← fillWords_byte_succ, ih, Nat.add_right_comm]
    rfl

theorem memSet_eq (m : Mem) (start : ℕ) (value : Byte) (num : ℕ) :
    memSet m start value num = fillWords 1 start value.toNat num m := by
  have h := memSetLoop_eq start value num 0 m
  rwa [Nat.zero_add] at h

theorem memSet_outside (m : Mem) {start num x : ℕ} (value : Byte) (h : Outside x start num) :
    memSet m start value num x = m x := by
  rw [memSet_eq]
  exact fillWords_outside m (by rwa [Nat.mul_one])

theorem memSet_apply (m : Mem) {start num k : ℕ} (value : Byte) (hk : k < num)
    (hn : num ≤ 2 ^ 64) : memSet m start value num (wrap (start + k)) = value := by
  rw [memSet_eq, fillWords_apply Nat.one_pos m (by omega) (by omega)]
  simp [wordByte, Nat.mod_one]

/-- The loop of `MEM_Set64`, which tests `i < num` before each store. -/
def memSet64Loop (start value num : ℕ) : ℕ → ℕ → Mem → Mem
  | 0, _, m => m
  | fuel + 1, i, m =>
    if i < num then memSet64Loop start value num fuel (wrap (i + 8)) (store64 m (start + i) value)
    else m

/-- `(num + 7) / 8` turns of the loop reach `num` whenever `i += 8` does not wrap. -/
def memSet64 (m : Mem) (start value num : ℕ) : Mem :=
  memSet64Loop start value num ((num + 7) / 8) 0 m

def memSet64Offsets (num : ℕ) : List ℕ := List.range (8 * ((num + 7) / 8))

theorem memSet64Loop_eq {num : ℕ} (hroom : num + 8 ≤ 2 ^ 64) (start value : ℕ) (m : Mem)
    {fuel k : ℕ} (hk : k + fuel = wordCount 8 num) :
    memSet64Loop start value num fuel (k * 8) (fillWords 8 start value k m) =
      fillWords 8 start value (wordCount 8 num) m := by
  obtain ⟨_, hlt⟩ := wordCount_bounds (show 0 < 8 by decide) num
  induction fuel generalizing k with
  | zero => rw [← hk]; rfl
  | succ fuel ih =>
    rw [memSet64Loop, if_pos (by omega), wrap_of_lt (by omega), ← Nat.succ_mul]
    exact ih (by omega)

theorem memSet64_eq {num : ℕ} (hroom : num + 8 ≤ 2 ^ 64) (m : Mem) (start value : ℕ) :
    memSet64 m start value num = fillWords 8 start value (wordCount 8 num) m :=
  memSet64Loop_eq hroom start value m (Nat.zero_add _)

theorem memSet64_zero (m : Mem) (start num k : ℕ) (hk : k < 8 * ((num + 7) / 8))
    (hn : num + 8 ≤ 2 ^ 64) : memSet64 m start 0 num (wrap (start + k)) = 0#8 := by
  have hcount : wordCount 8 num = (num + 7) / 8 := rfl
  rw [memSet64_eq hn, fillWords_apply (by decide) m (by omega) (by omega), wordByte, Nat.zero_div]

theorem memSet64_outside (m : Mem) (start num x : ℕ) (hn : num + 8 ≤ 2 ^ 64)
    (h : Outside x start (8 * ((num + 7) / 8))) : memSet64 m start 0 num x = m x := by
  rw [memSet64_eq hn]
  exact fillWords_outside m (by rwa [Nat.mul_comm])

/-! ### The fill functions as they run -/

section Runs
variable (m : Mem) (start : ℕ)

def memSetRun (value : Byte) (num fuel : ℕ) : Option Mem :=
  fillLoop 1 start value.toNat num fuel 0 m

def memSet32Run (value : BitVec 32) (num fuel : ℕ) : Option Mem :=
  fillLoop 4 start value.toNat num fuel 0 m

def memSet64Run (value : BitVec 64) (num fuel : ℕ) : Option Mem :=
  fillLoop 8 start value.toNat num fuel 0 m

theorem memSetRun_eq (value : Byte) {num fuel : ℕ} (hnum : num < 2 ^ 64) (hfuel : num < fuel) :
    memSetRun m start value num fuel = some (memSet m start value num) := by
  have hcount : wordCount 1 num = num := Nat.div_one num
  rw [memSetRun, fillLoop_eq Nat.one_pos hnum, hcount, if_pos hfuel, memSet_eq]

theorem memSet64Run_eq (value : BitVec 64) {num fuel : ℕ} (hroom : num + 8 ≤ 2 ^ 64)
    (hfuel : (num + 7) / 8 < fuel) :
    memSet64Run m start value num fuel = some (memSet64 m start value.toNat num) := by
  rw [memSet64Run, fillLoop_eq (by decide) hroom, memSet64_eq hroom]
  exact if_pos hfuel

/-- Bytes are filled exactly, and words as far as the last one does no harm behind the range. -/
theorem memFills_iff {num : ℕ} (hnum : num < 2 ^ 64) (byte : Byte) (word : BitVec 32)
    (quad : BitVec 64) :
    FillsExactly 1 start byte.toNat num (memSetRun m start byte num) m ∧
    (FillsExactly 4 start word.toNat num (memSet32Run m start word num) m ↔
      TailFits 4 start word.toNat num m) ∧
    (FillsExactly 8 start quad.toNat num (memSet64Run m start quad num) m ↔
      TailFits 8 start quad.toNat num m) := by
  refine ⟨?_, ?_, ?_⟩
  · apply (fillsExactly_iff Nat.one_pos (Nat.one_dvd _) m).2
    exact tailFits_of_dvd Nat.one_pos (Nat.one_dvd _) (Nat.one_dvd _) hnum m
  · exact fillsExactly_iff (by decide) (by decide) m
  · exact fillsExactly_iff (by decide) (by decide) m

end Runs

theorem memFills_iff_bitmap :
    FillsExactly 1 0x1000 0 2049 (memSetRun (fun _ => 0xff#8) 0x1000 0 2049) (fun _ => 0xff#8) ∧
    (FillsExactly 4 0x1000 0 2049 (memSet32Run (fun _ => 0xff#8) 0x1000 0 2049)
      (fun _ => 0xff#8) ↔ TailFits 4 0x1000 0 2049 fun _ => 0xff#8) ∧
    (FillsExactly 8 0x1000 0 2049 (memSet64Run (fun _ => 0xff#8) 0x1000 0 2049)
      (fun _ => 0xff#8) ↔ TailFits 8 0x1000 0 2049 fun _ => 0xff#8) :=
  memFills_iff (fun _ => 0xff#8) 0x1000 (by decide) 0 0 0

/-- A bitmap of 2049 bytes, for 64 MiB of memory, is cleared together with what lies behind. -/
theorem not_fillsExactly_bitmap : ¬ FillsExactly 8 0x1000 0 2049
    (memSet64Run (fun _ => 0xff#8) 0x1000 0 2049) fun _ => 0xff#8 := by
  intro h
  have htail : TailFits 8 0x1000 0 2049 fun _ => 0xff#8 :=
    (fillsExactly_iff (by decide) (by decide) _).1 h
  exact absurd (htail.2 2049 le_rfl (by decide)) (by decide)

end Rizzos.Memory
