import Rizzos.ByteMemory

set_option autoImplicit false

/-! The processor's features, as `sysinfo/cpu.c` keeps and tests them. -/
namespace Rizzos.CpuFeatures
open ByteMemory

structure Registers where
  eax : BitVec 32
  ebx : BitVec 32
  ecx : BitVec 32
  edx : BitVec 32

structure CpuInfo where
  manufacturerID : List Byte
  hfp : BitVec 32
  steppingID : Byte
  model : Byte
  familyID : Byte
  processorType : Byte
  extendedModelID : Byte
  extendedFamilyID : Byte

structure SysInfo where
  cpuInfo : CpuInfo
  isInitialized : Bool
  featureInfo : BitVec 64

def initialSysInfo : SysInfo :=
  ⟨⟨List.replicate 13 0, 0, 0, 0, 0, 0, 0, 0⟩, false, 0⟩

def maskedByte (register mask : BitVec 32) (shift : ℕ) : Byte :=
  ((register &&& mask) >>> shift).setWidth 8

def setManufacturerID (ebx ecx edx : BitVec 32) : List Byte :=
  [maskedByte ebx 0x000000FF 0, maskedByte ebx 0x0000FF00 8,
    maskedByte ebx 0x00FF0000 16, maskedByte ebx 0xFF000000 24,
    maskedByte edx 0x000000FF 0, maskedByte edx 0x0000FF00 8,
    maskedByte edx 0x00FF0000 16, maskedByte edx 0xFF000000 24,
    maskedByte ecx 0x000000FF 0, maskedByte ecx 0x0000FF00 8,
    maskedByte ecx 0x00FF0000 16, maskedByte ecx 0xFF000000 24, 0]

def packFeatures (ecx edx : BitVec 32) : BitVec 64 := ecx.setWidth 64 <<< 32 ||| edx.setWidth 64

/-- `1 << flag`, widened to 64 bits. It is an `int` that is shifted, and the processor takes the
    count of such a shift modulo 32. -/
def featureMask (flag : Byte) : BitVec 64 := (1#32 <<< (flag.toNat % 32)).signExtend 64

section Queries
variable (cpuid : BitVec 32 → Registers)

/-- The processor is asked once. -/
def sysInfoGetCpuInfo (s : SysInfo) : CpuInfo × SysInfo :=
  if s.isInitialized then (s.cpuInfo, s)
  else
    let vendor := cpuid 0
    let version := cpuid 1
    let cpuInfo : CpuInfo :=
      { manufacturerID := setManufacturerID vendor.ebx vendor.ecx vendor.edx
        hfp := vendor.eax
        steppingID := (version.eax &&& 0xF).setWidth 8
        model := (version.eax >>> 4 &&& 0xF).setWidth 8
        familyID := (version.eax >>> 8 &&& 0xF).setWidth 8
        processorType := (version.eax >>> 12 &&& 0x3).setWidth 8
        extendedModelID := (version.eax >>> 16 &&& 0xF).setWidth 8
        extendedFamilyID := (version.eax >>> 20 &&& 0xFF).setWidth 8 }
    (cpuInfo, ⟨cpuInfo, true, packFeatures version.ecx version.edx⟩)

def sysInfoIsFeatureAvailable (flag : Byte) (s : SysInfo) : Bool × SysInfo :=
  let (_, s) := sysInfoGetCpuInfo cpuid s
  (s.featureInfo &&& featureMask flag > 0#64, s)

def queried (flags : List Byte) : SysInfo :=
  flags.foldl (fun s flag => (sysInfoIsFeatureAvailable cpuid flag s).2) initialSysInfo

end Queries

/-- The bit that stands for a flag: the flags from 32 on are those of `ecx`. -/
def featureBit (ecx edx : BitVec 32) (flag : ℕ) : Bool :=
  if flag < 32 then edx.getLsbD flag else ecx.getLsbD (flag - 32)

/-- The mask picks out the bit of the flag, or bits that happen to say the same. -/
def MaskExact (ecx edx : BitVec 32) (flag : ℕ) : Prop :=
  if flag < 31 then True
  else if flag = 31 then edx.getLsbD 31 ∨ ecx = 0
  else if flag < 63 then ecx.getLsbD (flag - 32) = edx.getLsbD (flag - 32)
  else ecx.getLsbD 31 ∨ edx.getLsbD 31 = false ∧ ecx = 0

section Masks
variable {ecx edx : BitVec 32}

theorem and_pos_iff (x mask : BitVec 64) : x &&& mask > 0#64 ↔
    ∃ i < 64, x.getLsbD i = true ∧ mask.getLsbD i = true := by
  rw [gt_iff_lt, BitVec.pos_iff_ne_zero, ne_eq, ← not_iff_not, not_not]
  push Not
  constructor
  · intro h i _ hx hmask
    have hbit := congrArg (BitVec.getLsbD · i) h
    simp [hx, hmask] at hbit
  · intro h
    apply BitVec.eq_of_getLsbD_eq
    intro i hi
    rw [BitVec.getLsbD_and, BitVec.getLsbD_zero]
    cases hx : x.getLsbD i with
    | false => rfl
    | true => simpa using h i hi hx

theorem packFeatures_getLsbD {i : ℕ} (hi : i < 64) : (packFeatures ecx edx).getLsbD i =
    if i < 32 then edx.getLsbD i else ecx.getLsbD (i - 32) := by
  rw [packFeatures, BitVec.getLsbD_or, BitVec.getLsbD_shiftLeft, BitVec.getLsbD_setWidth,
    BitVec.getLsbD_setWidth]
  by_cases hlow : i < 32
  · simp [hlow, hi]
  · rw [if_neg hlow, edx.getLsbD_of_ge i (by omega)]
    simp [hlow, hi, show i - 32 < 64 by omega]

/-- The mask is one bit, but for the sign bit of the `int`, which is extended. -/
theorem featureMask_getLsbD (flag : Byte) {i : ℕ} (hi : i < 64) : (featureMask flag).getLsbD i =
    if flag.toNat % 32 < 31 then decide (i = flag.toNat % 32) else decide (31 ≤ i) := by
  have hmod : flag.toNat % 32 < 32 := Nat.mod_lt _ (by decide)
  rw [featureMask]
  generalize flag.toNat % 32 = k at hmod ⊢
  have hall : ∀ k < 32, ∀ i < 64, ((1#32 <<< k).signExtend 64).getLsbD i =
      if k < 31 then decide (i = k) else decide (31 ≤ i) := by decide +kernel
  exact hall k hmod i hi

theorem exists_bit_of_ne_zero (h : ecx ≠ 0) : ∃ j, ecx.getLsbD j = true := by
  by_contra hnone
  push Not at hnone
  apply h
  apply BitVec.eq_of_getLsbD_eq
  intro j _
  rw [Bool.eq_false_iff.2 (hnone j)]
  exact BitVec.getLsbD_zero.symm

theorem feature_test (flag : Byte) : (packFeatures ecx edx &&& featureMask flag > 0#64) ↔
    if flag.toNat % 32 < 31 then edx.getLsbD (flag.toNat % 32) = true
      else edx.getLsbD 31 = true ∨ ecx ≠ 0 := by
  rw [and_pos_iff]
  split
  · rename_i hk
    constructor
    · rintro ⟨i, hi, hx, hmask⟩
      rw [featureMask_getLsbD flag hi, if_pos hk, decide_eq_true_eq] at hmask
      rwa [packFeatures_getLsbD hi, if_pos (by omega), hmask] at hx
    · intro hbit
      refine ⟨flag.toNat % 32, by omega, ?_, ?_⟩
      · rwa [packFeatures_getLsbD (by omega), if_pos (by omega)]
      · rw [featureMask_getLsbD flag (by omega), if_pos hk, decide_eq_true rfl]
  · rename_i hk
    constructor
    · rintro ⟨i, hi, hx, hmask⟩
      rw [featureMask_getLsbD flag hi, if_neg hk, decide_eq_true_eq] at hmask
      rw [packFeatures_getLsbD hi] at hx
      split at hx
      · obtain rfl : i = 31 := by omega
        exact .inl hx
      · refine .inr fun hzero => ?_
        rw [hzero] at hx
        simp at hx
    · rintro (hsign | hne)
      · refine ⟨31, by decide, ?_, ?_⟩
        · rwa [packFeatures_getLsbD (by decide), if_pos (by decide)]
        · rw [featureMask_getLsbD flag (by decide), if_neg hk]
          rfl
      · obtain ⟨j, hj⟩ := exists_bit_of_ne_zero hne
        have hlt : j < 32 := BitVec.lt_of_getLsbD hj
        refine ⟨j + 32, by omega, ?_, ?_⟩
        · rwa [packFeatures_getLsbD (by omega), if_neg (by omega), Nat.add_sub_cancel]
        · rw [featureMask_getLsbD flag (by omega), if_neg hk]
          exact decide_eq_true (by omega)

end Masks

section Cache
variable {cpuid : BitVec 32 → Registers}

theorem sysInfoGetCpuInfo_again (s : SysInfo) :
    sysInfoGetCpuInfo cpuid (sysInfoGetCpuInfo cpuid s).2 = sysInfoGetCpuInfo cpuid s := by
  cases hinitialized : s.isInitialized with
  | true =>
    have hs : sysInfoGetCpuInfo cpuid s = (s.cpuInfo, s) := by
      rw [sysInfoGetCpuInfo, if_pos hinitialized]
    rw [hs, hs]
  | false => simp [sysInfoGetCpuInfo, hinitialized]

theorem sysInfoGetCpuInfo_queried (flags : List Byte) :
    sysInfoGetCpuInfo cpuid (queried cpuid flags) = sysInfoGetCpuInfo cpuid initialSysInfo := by
  induction flags using List.reverseRecOn with
  | nil => rfl
  | append_singleton flags flag ih =>
    rw [queried, List.foldl_append]
    exact (sysInfoGetCpuInfo_again _).trans ih

theorem sysInfoIsFeatureAvailable_queried (earlier : List Byte) (flag : Byte) :
    (sysInfoIsFeatureAvailable cpuid flag (queried cpuid earlier)).1 =
      decide (packFeatures (cpuid 1).ecx (cpuid 1).edx &&& featureMask flag > 0#64) := by
  rw [sysInfoIsFeatureAvailable, sysInfoGetCpuInfo_queried]
  rfl

end Cache

/-- A query after any others answers rightly exactly where the mask picks out the right bit. -/
theorem isFeatureAvailable_iff (cpuid : BitVec 32 → Registers) (earlier : List Byte) {flag : Byte}
    (hflag : flag.toNat < 64) :
    (sysInfoIsFeatureAvailable cpuid flag (queried cpuid earlier)).1 =
        featureBit (cpuid 1).ecx (cpuid 1).edx flag.toNat ↔
      MaskExact (cpuid 1).ecx (cpuid 1).edx flag.toNat := by
  rw [sysInfoIsFeatureAvailable_queried, Bool.eq_iff_iff, decide_eq_true_iff, feature_test]
  generalize (cpuid 1).ecx = ecx
  generalize (cpuid 1).edx = edx
  generalize flag.toNat = n at hflag ⊢
  unfold MaskExact featureBit
  have hcases : n < 31 ∨ n = 31 ∨ 32 ≤ n ∧ n < 63 ∨ n = 63 := by omega
  rcases hcases with hlow | rfl | ⟨hlo, hhi⟩ | rfl
  · rw [if_pos (show n % 32 < 31 by omega), if_pos (show n < 32 by omega), if_pos hlow,
      Nat.mod_eq_of_lt (by omega)]
    exact iff_of_true Iff.rfl trivial
  · -- the sign bit of the mask covers `ecx` as well
    change (edx.getLsbD 31 = true ∨ ecx ≠ 0 ↔ edx.getLsbD 31 = true) ↔
      edx.getLsbD 31 = true ∨ ecx = 0
    tauto
  · -- the mask has wrapped around to the bits of `edx`
    have hmod : n % 32 = n - 32 := by omega
    rw [if_pos (show n % 32 < 31 by omega), if_neg (show ¬ n < 32 by omega),
      if_neg (show ¬ n < 31 by omega), if_neg (show n ≠ 31 by omega), if_pos hhi, hmod]
    exact Iff.comm.trans Bool.eq_iff_iff.symm
  · have hzero : ecx.getLsbD 31 = true → ecx ≠ 0 := by
      rintro hbit rfl
      simp at hbit
    change (edx.getLsbD 31 = true ∨ ecx ≠ 0 ↔ ecx.getLsbD 31 = true) ↔
      ecx.getLsbD 31 = true ∨ edx.getLsbD 31 = false ∧ ecx = 0
    rw [← Bool.not_eq_true]
    tauto

def plainProcessor (_ : BitVec 32) : Registers := ⟨0, 0, 0, 1⟩

theorem isFeatureAvailable_iff_fpu :
    (sysInfoIsFeatureAvailable plainProcessor 0 (queried plainProcessor [60])).1 =
        featureBit (plainProcessor 1).ecx (plainProcessor 1).edx 0 ↔
      MaskExact (plainProcessor 1).ecx (plainProcessor 1).edx 0 :=
  isFeatureAvailable_iff plainProcessor [60] (by decide)

/-- Asked for SSE3, which is flag 32, it answers for the FPU. -/
theorem not_isFeatureAvailable_sse3 :
    (sysInfoIsFeatureAvailable plainProcessor 32 (queried plainProcessor [])).1 ≠
      featureBit (plainProcessor 1).ecx (plainProcessor 1).edx 32 := by
  decide

end Rizzos.CpuFeatures
