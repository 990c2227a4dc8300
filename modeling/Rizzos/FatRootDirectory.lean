import Rizzos.CInt
import Rizzos.Fat
import Mathlib.Algebra.Order.Floor.Div

set_option autoImplicit false

/-! Where `AHCI_AHCIDriver` of `ahci/ahci.c` looks for the root directory of a volume. -/
namespace Rizzos.FatRootDirectory
open ByteMemory StructLayout CInt Fat

/-- The values of the computation, in the order in which they are made. -/
structure RootDirectory where
  totalSectors : ℕ
  fatSize : ℕ
  entryBytes : ℤ
  roundUp : ℤ
  dividend : ℤ
  rootDirSectors : ℕ
  fatSectors : ℕ
  reservedSectors : ℕ
  firstDataSector : ℕ
  firstRootDirSector : ℕ
deriving DecidableEq, Repr

/-- Operands shorter than an `int` are promoted to one, and `fat_size` and what is added to it
    is unsigned. `none` is a division by zero. -/
def rootDirectory (bpb : FatBpb) : Option RootDirectory :=
  let totalSectors := uint32 bpb.numLogicalSectors
  let fatSize := uint32 bpb.numSectorsPerFat
  let entryBytes := int32 (bpb.numRootDirEntries * 32)
  let roundUp := int32 (bpb.numBytesPerSector - 1)
  let dividend := int32 (entryBytes + roundUp)
  if bpb.numBytesPerSector = 0 then none
  else
    let rootDirSectors := uint32 (int32 (dividend.tdiv bpb.numBytesPerSector))
    let fatSectors := uint32 (bpb.numFileAlocationTables * fatSize)
    let reservedSectors := uint32 (bpb.numReservedSectors + fatSectors)
    let firstDataSector := uint32 (reservedSectors + rootDirSectors)
    let firstRootDirSector := uint32 (firstDataSector - rootDirSectors)
    some ⟨totalSectors, fatSize, entryBytes, roundUp, dividend, rootDirSectors, fatSectors,
      reservedSectors, firstDataSector, firstRootDirSector⟩

/-- The same values over the integers. -/
def exactRootDirectory (bpb : FatBpb) : RootDirectory where
  totalSectors := bpb.numLogicalSectors
  fatSize := bpb.numSectorsPerFat
  entryBytes := bpb.numRootDirEntries * 32
  roundUp := bpb.numBytesPerSector - 1
  dividend := bpb.numRootDirEntries * 32 + (bpb.numBytesPerSector - 1)
  rootDirSectors := 32 * bpb.numRootDirEntries ⌈/⌉ bpb.numBytesPerSector
  fatSectors := bpb.numFileAlocationTables * bpb.numSectorsPerFat
  reservedSectors := bpb.numReservedSectors + bpb.numFileAlocationTables * bpb.numSectorsPerFat
  firstDataSector := bpb.numReservedSectors + bpb.numFileAlocationTables * bpb.numSectorsPerFat +
    32 * bpb.numRootDirEntries ⌈/⌉ bpb.numBytesPerSector
  firstRootDirSector := bpb.numReservedSectors +
    bpb.numFileAlocationTables * bpb.numSectorsPerFat

/-- The computation does not divide by zero, no value wraps, and the root directory starts
    behind the allocation tables and ends where the data begin. -/
def RootDirectoryExact (bpb : FatBpb) : Prop :=
  ∃ r, rootDirectory bpb = some r ∧ r = exactRootDirectory bpb ∧
    r.firstRootDirSector =
      bpb.numReservedSectors + bpb.numFileAlocationTables * bpb.numSectorsPerFat ∧
    r.firstRootDirSector + 32 * bpb.numRootDirEntries ⌈/⌉ bpb.numBytesPerSector =
      r.firstDataSector

/-- The ranges of the members that the computation reads. -/
structure BpbRange (bpb : FatBpb) : Prop where
  numBytesPerSector : bpb.numBytesPerSector < 2 ^ 16
  numReservedSectors : bpb.numReservedSectors < 2 ^ 16
  numFileAlocationTables : bpb.numFileAlocationTables < 2 ^ 8
  numRootDirEntries : bpb.numRootDirEntries < 2 ^ 16
  numLogicalSectors : bpb.numLogicalSectors < 2 ^ 16
  numSectorsPerFat : bpb.numSectorsPerFat < 2 ^ 16

theorem loadBpb_range (m : Mem) (a : ℕ) : BpbRange (loadBpb m a) where
  numBytesPerSector := loadLE_lt m _ 2
  numReservedSectors := loadLE_lt m _ 2
  numFileAlocationTables := loadLE_lt m _ 1
  numRootDirEntries := loadLE_lt m _ 2
  numLogicalSectors := loadLE_lt m _ 2
  numSectorsPerFat := loadLE_lt m _ 2

theorem fatParseFat16_12_bpb {m : Mem} {buffer : ℕ} {fat16 : Fat16}
    (h : fatParseFat16_12 m buffer = some fat16) : fat16.bpb = loadBpb m buffer := by
  unfold fatParseFat16_12 at h
  dsimp only at h
  split at h
  · cases h
  · split at h
    · cases h
    · rw [← Option.some_inj.1 h]

/-- The quotient that the code rounds up by adding the divisor less one. -/
theorem rootDirSectors_eq {n b : ℕ} (hn : n < 2 ^ 16) (hb : b < 2 ^ 16) (hpos : b ≠ 0) :
    uint32 (int32 ((n * 32 + (b - 1) : ℤ).tdiv b)) = 32 * n ⌈/⌉ b := by
  have hdividend : (n * 32 + (b - 1) : ℤ) = ((32 * n + b - 1 : ℕ) : ℤ) := by omega
  have hle : (32 * n + b - 1) / b ≤ 32 * n + b - 1 := Nat.div_le_self _ _
  rw [hdividend, Nat.ceilDiv_eq_add_pred_div]
  change uint32 (int32 (((32 * n + b - 1) / b : ℕ) : ℤ)) = _
  rw [int32_ofNat_of_lt (by omega), uint32_of_range (by omega)]

theorem rootDirectory_eq {bpb : FatBpb} (h : BpbRange bpb) (hpos : bpb.numBytesPerSector ≠ 0) :
    rootDirectory bpb = some (exactRootDirectory bpb) := by
  have htables : bpb.numFileAlocationTables * bpb.numSectorsPerFat ≤ 2 ^ 8 * 2 ^ 16 :=
    Nat.mul_le_mul h.numFileAlocationTables.le h.numSectorsPerFat.le
  obtain ⟨hbytes, hreserved, _, hentries, hlogical, hfat⟩ := h
  have hsectors := rootDirSectors_eq hentries hbytes hpos
  have hceil : 32 * bpb.numRootDirEntries ⌈/⌉ bpb.numBytesPerSector < 2 ^ 22 := by
    rw [Nat.ceilDiv_eq_add_pred_div]
    have := Nat.div_le_self (32 * bpb.numRootDirEntries + bpb.numBytesPerSector - 1)
      bpb.numBytesPerSector
    omega
  have hfatSectors := uint32_mul (x := bpb.numFileAlocationTables) (y := bpb.numSectorsPerFat)
    (by omega)
  have hreservedSectors := uint32_add (x := bpb.numReservedSectors)
    (y := bpb.numFileAlocationTables * bpb.numSectorsPerFat) (by omega)
  have hdata := uint32_add (y := 32 * bpb.numRootDirEntries ⌈/⌉ bpb.numBytesPerSector)
    (x := bpb.numReservedSectors + bpb.numFileAlocationTables * bpb.numSectorsPerFat) (by omega)
  have hstart := uint32_sub (y := 32 * bpb.numRootDirEntries ⌈/⌉ bpb.numBytesPerSector)
    (x := bpb.numReservedSectors + bpb.numFileAlocationTables * bpb.numSectorsPerFat +
      32 * bpb.numRootDirEntries ⌈/⌉ bpb.numBytesPerSector) (by omega) (by omega)
  simp only [rootDirectory, exactRootDirectory, if_neg hpos]
  rw [uint32_of_range (show bpb.numLogicalSectors < 2 ^ 32 by omega),
    uint32_of_range (show bpb.numSectorsPerFat < 2 ^ 32 by omega),
    int32_of_range (x := bpb.numRootDirEntries * 32) (by omega) (by omega),
    int32_of_range (x := bpb.numBytesPerSector - 1) (by omega) (by omega),
    int32_of_range (x := bpb.numRootDirEntries * 32 + (bpb.numBytesPerSector - 1)) (by omega)
      (by omega), hsectors, hfatSectors, hreservedSectors, hdata, hstart, Nat.add_sub_cancel]

theorem rootDirectoryExact_iff (m : Mem) (buffer : ℕ) (fat16 : Fat16)
    (h : fatParseFat16_12 m buffer = some fat16) :
    RootDirectoryExact fat16.bpb ↔ fat16.bpb.numBytesPerSector ≠ 0 := by
  constructor
  · rintro ⟨r, hr, _⟩ hzero
    rw [rootDirectory, if_pos hzero] at hr
    cases hr
  · intro hpos
    have hrange : BpbRange fat16.bpb := by
      rw [fatParseFat16_12_bpb h]
      exact loadBpb_range m buffer
    exact ⟨_, rootDirectory_eq hrange hpos, rfl, rfl, rfl⟩

theorem rootDirectoryExact_bootSector : RootDirectoryExact (loadBpb bootSector 0) ↔
    (loadBpb bootSector 0).numBytesPerSector ≠ 0 :=
  rootDirectoryExact_iff bootSector 0 ⟨loadBpb bootSector 0, loadEbpb16 bootSector 40⟩
    (by decide +kernel)

def blankSector : Mem := fun a => if a = 0 then 0xeb#8 else if a = 2 then 0x90#8 else 0#8

theorem not_rootDirectoryExact_blankSector : ∃ fat16,
    fatParseFat16_12 blankSector 0 = some fat16 ∧ rootDirectory fat16.bpb = none ∧
      ¬ RootDirectoryExact fat16.bpb := by
  have hparse : fatParseFat16_12 blankSector 0 =
      some ⟨loadBpb blankSector 0, loadEbpb16 blankSector 40⟩ := by decide +kernel
  have hnone : rootDirectory (loadBpb blankSector 0) = none := by decide +kernel
  refine ⟨_, hparse, hnone, ?_⟩
  rintro ⟨r, hr, _⟩
  rw [hnone] at hr
  cases hr

end Rizzos.FatRootDirectory
