import Rizzos.AhciPointers
import Rizzos.AhciTables

set_option autoImplicit false

/-!
# A disk behind a port

The controller takes the command in slot 0 for what the ATA layout says and copies sectors to the
address in the first entry of its table. A command that fails brings nothing.
-/
namespace Rizzos.AhciDisk
open ByteMemory CInt Memory MemberWrites Ahci AhciRead AhciPointers AhciTables

abbrev Disk := ℕ → ℕ → Byte

def copy (disk : Disk) (base sector n : ℕ) (m : Mem) : Mem := fun x =>
  if base ≤ x ∧ x < base + n then disk (sector + (x - base) / 512) ((x - base) % 512) else m x

theorem copy_outside (disk : Disk) {base n x : ℕ} (sector : ℕ) (m : Mem)
    (h : x < base ∨ base + n ≤ x) : copy disk base sector n m x = m x :=
  if_neg (by omega)

theorem copy_inside (disk : Disk) {base n i : ℕ} (sector : ℕ) (m : Mem) (hi : i < n) :
    copy disk base sector n m (base + i) = disk (sector + i / 512) (i % 512) := by
  rw [copy, if_pos ⟨Nat.le_add_right _ _, by omega⟩, Nat.add_sub_cancel_left]

def dataBase (m : Mem) (commandTable : ℕ) : ℕ :=
  load64 m (commandTable + HBACommandTable.prdtEntry + HBAPRDTEntry.dataBaseAddress)

/-- A header for a read with one entry, and a FIS of five double words with a READ DMA EXT. -/
def ReadCommand (m : Mem) (cmdHeader commandTable : ℕ) : Prop :=
  loadLE m (cmdHeader + HBACommandHeader.flags) 1 % 2 ^ 5 = FISRegH2D.size / 4 ∧
  loadLE m (cmdHeader + HBACommandHeader.flags) 1 / 2 ^ 6 % 2 = 0 ∧
  load16 m (cmdHeader + HBACommandHeader.prdtLength) = 1 ∧
  fisByte m commandTable FISRegH2D.fisType = fisTypeRegH2D ∧
  fisByte m commandTable FISRegH2D.commandControlUnit / 2 ^ 7 = 1 ∧
  fisByte m commandTable FISRegH2D.command = ataCmdReadDmaEx

instance (m : Mem) (cmdHeader commandTable : ℕ) : Decidable (ReadCommand m cmdHeader commandTable) :=
  inferInstanceAs (Decidable (_ ∧ _ ∧ _ ∧ _ ∧ _ ∧ _))

/-- What the controller does with the command. -/
def transfer (disk : Disk) (cmdHeader : ℕ) (m : Mem) : Mem :=
  let commandTable := headerTable cmdHeader m
  if ReadCommand m cmdHeader commandTable then
    let (sector, sectorCount, bytes) := decode m commandTable
    copy disk (dataBase m commandTable) sector (min (512 * sectorCount) bytes) m
  else m

def diskRead {α : Type} (hba : Controller) (disk : Disk) (fuel sector sectorCount buffer : ℕ)
    (s : PortState α) : Option (PortState α × Bool) :=
  let (s, result) := portRead hba fuel sector sectorCount buffer s
  result.map fun completed =>
    (if completed then { s with mem := transfer disk s.hbaPort.commandList s.mem } else s, completed)

/-! ### The command as the controller reads it -/

section Command
variable (m : Mem) {cmdHeader commandTable : ℕ} (sector sectorCount buffer : ℕ)

theorem fillTable_load {a n : ℕ} (hspace : commandTable + filledSize ≤ 2 ^ 64) (ha : a + n ≤ 2 ^ 64)
    (hapart : a + n ≤ commandTable ∨ commandTable + filledSize ≤ a) :
    loadLE (fillTable m commandTable 1 sector sectorCount buffer) a n = loadLE m a n := by
  apply loadLE_congr
  intro i hi
  rw [wrap_of_lt (by omega)]
  exact fillTable_outside _ _ _ _ (Outside.of_range hspace (by omega))

theorem fillHeader_flags (hspace : cmdHeader + HBACommandHeader.size ≤ 2 ^ 64) :
    loadLE (fillHeader m cmdHeader) (cmdHeader + HBACommandHeader.flags) 1 =
      insertBits (insertBits (loadLE m (cmdHeader + HBACommandHeader.flags) 1) 0 5
        (FISRegH2D.size / 4)) 6 1 0 := by
  unfold HBACommandHeader.size at hspace
  have hlength : ∀ mem : Mem, loadLE (storeLE mem (cmdHeader + HBACommandHeader.prdtLength) 2 1)
      (cmdHeader + HBACommandHeader.flags) 1 = loadLE mem (cmdHeader + HBACommandHeader.flags) 1 := by
    intro mem
    unfold HBACommandHeader.prdtLength HBACommandHeader.flags
    exact loadLE_storeLE_disjoint _ _ (by omega) (by omega) (.inl (by omega))
  rw [fillHeader, hlength, loadLE_storeBits _ _ (by decide) (by decide),
    loadLE_storeBits _ _ (by decide) (by decide)]

theorem fillTable_commandControl (hspace : commandTable + filledSize ≤ 2 ^ 64) :
    fisByte (fillTable m commandTable 1 sector sectorCount buffer) commandTable
      FISRegH2D.commandControlUnit / 2 ^ 7 = 1 := by
  unfold filledSize HBACommandTable.size HBAPRDTEntry.size at hspace
  have hfis : commandTable + HBACommandTable.commandFIS + FISRegH2D.size ≤ 2 ^ 64 := by
    unfold HBACommandTable.commandFIS FISRegH2D.size
    omega
  have happart : ∀ w ∈ fisWrites sector sectorCount,
      Apart FISRegH2D.commandControlUnit 1 w.offset w.size := by
    simp only [fisWrites, List.forall_mem_cons, List.not_mem_nil, false_imp_iff, implies_true,
      and_true]
    refine ⟨?_, ?_, ?_, ?_, ?_, ?_, ?_, ?_, ?_, ?_⟩ <;> exact .inl (by decide)
  rw [fisByte, fillTable, fillFIS,
    load_writeAll_apart hfis (fisWrites_fit sector sectorCount) _ (by decide) happart,
    loadLE_storeBits _ _ (by decide) (by decide)]
  generalize hunit : loadLE _ _ 1 = unit
  have hlt : unit < 256 := hunit ▸ loadLE_lt _ _ 1
  unfold insertBits
  omega

theorem fillTable_dataBase (hspace : commandTable + filledSize ≤ 2 ^ 64) (hbuffer : buffer < 2 ^ 64) :
    dataBase (fillTable m commandTable 1 sector sectorCount buffer) commandTable = buffer := by
  unfold filledSize HBACommandTable.size HBAPRDTEntry.size at hspace
  have hfis : ∀ mem : Mem, load64 (fillFIS mem (commandTable + HBACommandTable.commandFIS) sector
      sectorCount) (commandTable + HBACommandTable.prdtEntry + HBAPRDTEntry.dataBaseAddress) =
      load64 mem (commandTable + HBACommandTable.prdtEntry + HBAPRDTEntry.dataBaseAddress) := by
    intro mem
    apply loadLE_congr
    intro i hi
    apply fillFIS_outside
    unfold HBACommandTable.prdtEntry HBAPRDTEntry.dataBaseAddress HBACommandTable.commandFIS
      FISRegH2D.size
    rw [wrap_of_lt (by omega)]
    exact Outside.of_range (by omega) (by omega)
  have hunit : ∀ (mem : Mem) (lo width value : ℕ),
      load64 (storeBits mem (commandTable + HBACommandTable.prdtEntry + HBAPRDTEntry.byteCountUnit)
        4 lo width value) (commandTable + HBACommandTable.prdtEntry + HBAPRDTEntry.dataBaseAddress) =
      load64 mem (commandTable + HBACommandTable.prdtEntry + HBAPRDTEntry.dataBaseAddress) := by
    intro mem lo width value
    unfold HBACommandTable.prdtEntry HBAPRDTEntry.byteCountUnit HBAPRDTEntry.dataBaseAddress
    exact loadLE_storeLE_disjoint _ _ (by omega) (by omega) (.inl (by omega))
  have hpair : ∀ (mem : Mem) (a : ℕ), writeAll a [⟨HBAPRDTEntry.dataBaseAddress, 4, buffer⟩,
      ⟨HBAPRDTEntry.dataBaseAddressUpper, 4, buffer >>> 32⟩] mem = store64 mem a buffer := by
    intro mem a
    rw [store64, storeLE_add mem a 4 4]
    simp [writeAll, HBAPRDTEntry.dataBaseAddress, HBAPRDTEntry.dataBaseAddressUpper,
      Nat.shiftRight_eq_div_pow]
  rw [dataBase, fillTable, hfis, fillPRDTEntry, hunit, hunit, hpair]
  exact load64_store64 _ _ hbuffer

end Command

/-! ### A read that completes -/

section Reads
variable {α : Type} {hba : Controller} {disk : Disk} {fuel sector sectorCount buffer : ℕ}
  {s : PortState α}

/-- The pointers of slot 0 lie below 4 GiB and the table does not lie over its header. -/
structure Low (H T : ℕ) (s : PortState α) : Prop where
  base : s.hbaPort.readHeader = H
  list : s.hbaPort.commandList = H
  table : headerTable H s.mem = T
  header_lt : H < 2 ^ 32
  table_lt : T < 2 ^ 32
  apart : T + filledSize ≤ H ∨ H + HBACommandHeader.size ≤ T

theorem Low.with_mem {H T : ℕ} {m : Mem} {alloc : α} (h : Low H T s)
    (hkept : Agree s.mem m (H + HBACommandHeader.commandTableBaseAddress) 8) :
    Low H T { s with mem := m, alloc := alloc } := by
  have hheader := h.header_lt
  refine ⟨h.base, h.list, (hkept.loadLE_eq ?_).trans h.table, h.header_lt, h.table_lt, h.apart⟩
  unfold HBACommandHeader.commandTableBaseAddress
  omega

def commandMem (H T sector sectorCount buffer : ℕ) (m : Mem) : Mem :=
  fillTable (fillHeader m H) T 1 sector sectorCount buffer

theorem Low.space {H T : ℕ} (h : Low H T s) :
    H + HBACommandHeader.size ≤ 2 ^ 64 ∧ T + filledSize ≤ 2 ^ 64 := by
  have hheader := h.header_lt
  have htable := h.table_lt
  unfold HBACommandHeader.size filledSize HBACommandTable.size HBAPRDTEntry.size
  omega

theorem Low.portRead_mem {H T : ℕ} (h : Low H T s) :
    (portRead hba fuel sector sectorCount buffer s).1.mem =
      commandMem H T sector sectorCount buffer s.mem := by
  have htable : builtTable s = T := by
    rw [builtTable, h.base, readTable_fillHeader _ h.space.1, readTable_eq, h.table,
      Nat.mod_eq_of_lt h.table_lt]
  rw [AhciRead.portRead_mem, htable, h.base, commandMem]

theorem Low.headerTable {H T : ℕ} (h : Low H T s) :
    headerTable H (commandMem H T sector sectorCount buffer s.mem) = T := by
  obtain ⟨hheader, htable⟩ := h.space
  have hapart := h.apart
  unfold HBACommandHeader.size at hheader hapart
  have hload : AhciPointers.headerTable H (commandMem H T sector sectorCount buffer s.mem) =
      AhciPointers.headerTable H (fillHeader s.mem H) := by
    unfold AhciPointers.headerTable HBACommandHeader.commandTableBaseAddress
    exact fillTable_load _ _ _ _ htable (by omega) (by omega)
  rw [hload, headerTable_fillHeader _ h.space.1, h.table]

theorem Low.readCommand {H T : ℕ} (h : Low H T s) :
    ReadCommand (commandMem H T sector sectorCount buffer s.mem) H T := by
  obtain ⟨hheader, htable⟩ := h.space
  have hapart := h.apart
  have hflags : loadLE (commandMem H T sector sectorCount buffer s.mem)
      (H + HBACommandHeader.flags) 1 = insertBits (insertBits
        (loadLE s.mem (H + HBACommandHeader.flags) 1) 0 5 (FISRegH2D.size / 4)) 6 1 0 := by
    rw [← fillHeader_flags _ hheader]
    unfold HBACommandHeader.size at hheader hapart
    unfold HBACommandHeader.flags
    exact fillTable_load _ _ _ _ htable (by omega) (by omega)
  have hlength : load16 (commandMem H T sector sectorCount buffer s.mem)
      (H + HBACommandHeader.prdtLength) = 1 := by
    rw [← fillHeader_prdtLength s.mem]
    unfold HBACommandHeader.size at hheader hapart
    unfold HBACommandHeader.prdtLength
    exact fillTable_load _ _ _ _ htable (by omega) (by omega)
  have hsize : FISRegH2D.size / 4 = 5 := rfl
  have hcommand : ⟨FISRegH2D.command, 1, ataCmdReadDmaEx⟩ ∈ fisWrites sector sectorCount := by
    simp [fisWrites]
  refine ⟨?_, ?_, hlength, ?_, fillTable_commandControl _ _ _ _ htable,
    fisByte_fillTable _ _ htable hcommand⟩
  · rw [hflags, hsize]
    unfold insertBits
    omega
  · rw [hflags, hsize]
    unfold insertBits
    omega
  · have hbyte : commandMem H T sector sectorCount buffer s.mem (wrap T) = 0x27#8 :=
      fillTable_fisType _ _ _ _ _
    rw [fisByte, loadLE, loadLE, load8]
    change (commandMem H T sector sectorCount buffer s.mem (wrap T)).toNat + 256 * 0 = _
    rw [hbyte]
    rfl

theorem Low.transfer {H T : ℕ} (h : Low H T s) (hpos : 1 ≤ sectorCount)
    (hcount : 512 * sectorCount ≤ 2 ^ 22) (hbuffer : buffer < 2 ^ 64) :
    transfer disk H (commandMem H T sector sectorCount buffer s.mem) =
      copy disk buffer (namedSector sector) (512 * sectorCount)
        (commandMem H T sector sectorCount buffer s.mem) := by
  have hdecode : decode (commandMem H T sector sectorCount buffer s.mem) T =
      (namedSector sector, sectorCount, (512 * sectorCount - 1) % 2 ^ 22 + 1) :=
    decode_fillTable _ sector buffer h.space.2 hpos (by omega)
  have hbase : dataBase (commandMem H T sector sectorCount buffer s.mem) T = buffer :=
    fillTable_dataBase _ _ _ _ h.space.2 hbuffer
  have hbytes : min (512 * sectorCount) ((512 * sectorCount - 1) % 2 ^ 22 + 1) =
      512 * sectorCount := by
    omega
  rw [AhciDisk.transfer]
  simp only [h.headerTable, if_pos h.readCommand, hdecode, hbase, hbytes]

/-- The poll finds the device ready in time, and then the command ends without an error. -/
def Completes (hba : Controller) (fuel : ℕ) : Prop :=
  ¬ NeverReady hba ∧ issueLoop hba fuel 0 = some true

theorem portRead_completes {H T : ℕ} (h : Low H T s) (hcompletes : Completes hba fuel) :
    portRead hba fuel sector sectorCount buffer s = ({ s with
      mem := commandMem H T sector sectorCount buffer s.mem
      hbaPort := { s.hbaPort with interruptStatus := -1, commandIssue := 1 }
      issued := true }, some true) := by
  have hready : spinLoop hba.taskFileData spinLimit 0 ≠ spinLimit :=
    (spins_iff hba).not.2 hcompletes.1
  rw [← h.portRead_mem, portRead, if_neg hready, hcompletes.2]

theorem diskRead_eq {H T : ℕ} (h : Low H T s) (hcompletes : Completes hba fuel)
    (hpos : 1 ≤ sectorCount) (hcount : 512 * sectorCount ≤ 2 ^ 22) (hbuffer : buffer < 2 ^ 64) :
    diskRead hba disk fuel sector sectorCount buffer s = some ({ s with
      mem := copy disk buffer (namedSector sector) (512 * sectorCount)
        (commandMem H T sector sectorCount buffer s.mem)
      hbaPort := { s.hbaPort with interruptStatus := -1, commandIssue := 1 }
      issued := true }, true) := by
  have hlist : HBAPort.commandList { s.hbaPort with interruptStatus := -1, commandIssue := 1 } = H :=
    h.list
  rw [diskRead, portRead_completes h hcompletes, ← h.transfer hpos hcount hbuffer]
  simp only [Option.map_some, if_true, hlist]

/-- A read that completes has brought the sectors, and slot 0 is as it was. -/
theorem diskRead_completes {H T : ℕ} (h : Low H T s) (hcompletes : Completes hba fuel)
    (hpos : 1 ≤ sectorCount) (hcount : 512 * sectorCount ≤ 2 ^ 22)
    (hbuffer : buffer + 512 * sectorCount ≤ 2 ^ 64)
    (hheader : RangesApart buffer (512 * sectorCount) H HBACommandHeader.size) :
    ∃ t, diskRead hba disk fuel sector sectorCount buffer s = some (t, true) ∧ Low H T t ∧
      t.alloc = s.alloc ∧ t.mem = copy disk buffer (namedSector sector) (512 * sectorCount)
        (commandMem H T sector sectorCount buffer s.mem) := by
  have htable : headerTable H (copy disk buffer (namedSector sector) (512 * sectorCount)
      (commandMem H T sector sectorCount buffer s.mem)) = T := by
    have hcommand : headerTable H (commandMem H T sector sectorCount buffer s.mem) = T := h.headerTable
    refine Eq.trans (loadLE_congr fun i hi => ?_) hcommand
    obtain ⟨hspace, -⟩ := h.space
    unfold RangesApart HBACommandHeader.size at hheader
    unfold HBACommandHeader.size at hspace
    unfold HBACommandHeader.commandTableBaseAddress
    rw [wrap_of_lt (by omega)]
    exact copy_outside _ _ _ (by omega)
  exact ⟨_, diskRead_eq h hcompletes hpos hcount (by omega),
    ⟨h.base, h.list, htable, h.header_lt, h.table_lt, h.apart⟩, rfl, rfl⟩

end Reads

end Rizzos.AhciDisk
