import Rizzos.Ahci

set_option autoImplicit false

/-! The command that `AHCI_Port_Read` builds, and what the controller takes it for. -/
namespace Rizzos.AhciRead
open ByteMemory CInt Memory MemberWrites Ahci

theorem clearedSize_one : clearedSize 1 = HBACommandTable.size := by decide

section Header
variable (m : Mem) {cmdHeader : ℕ}

theorem fillHeader_other {x : ℕ} (hflags : Outside x (cmdHeader + HBACommandHeader.flags) 1)
    (hlength : Outside x (cmdHeader + HBACommandHeader.prdtLength) 2) :
    fillHeader m cmdHeader x = m x := by
  rw [fillHeader, storeLE_outside _ _ hlength, storeBits_outside _ _ _ _ hflags,
    storeBits_outside _ _ _ _ hflags]

theorem fillHeader_outside {x : ℕ} (h : Outside x cmdHeader 4) : fillHeader m cmdHeader x = m x :=
  fillHeader_other m (h.part (by decide)) (h.part (by decide))

theorem fillHeader_prdtLength :
    load16 (fillHeader m cmdHeader) (cmdHeader + HBACommandHeader.prdtLength) = 1 :=
  loadLE_storeLE _ _ 2 1 (by decide)

theorem fillHeader_load (hspace : cmdHeader + HBACommandHeader.size ≤ 2 ^ 64) {offset n : ℕ}
    (hoffset : 4 ≤ offset) (hin : offset + n ≤ HBACommandHeader.size) :
    loadLE (fillHeader m cmdHeader) (cmdHeader + offset) n = loadLE m (cmdHeader + offset) n := by
  apply loadLE_congr
  intro i hi
  apply fillHeader_outside
  unfold HBACommandHeader.size at hspace hin
  rw [wrap_of_lt (by omega)]
  exact Outside.of_range (by omega) (by omega)

theorem readTable_fillHeader (hspace : cmdHeader + HBACommandHeader.size ≤ 2 ^ 64) :
    readTable cmdHeader (fillHeader m cmdHeader) = readTable cmdHeader m :=
  fillHeader_load m hspace (by decide) (by decide)

end Header

section Table
variable (m : Mem) {commandTable : ℕ} (sector sectorCount buffer : ℕ)

def filledSize : ℕ := HBACommandTable.size + HBAPRDTEntry.size

theorem fillFIS_outside {cmdFIS x : ℕ} (h : Outside x cmdFIS FISRegH2D.size) :
    fillFIS m cmdFIS sector sectorCount x = m x := by
  rw [fillFIS, fisWrites, writeAll_outside, storeBits_outside _ _ _ _ (h.part (by decide)),
    storeLE_outside _ _ (h.part (by decide))]
  simp only [List.forall_mem_cons, List.not_mem_nil, false_imp_iff, implies_true, and_true]
  refine ⟨?_, ?_, ?_, ?_, ?_, ?_, ?_, ?_, ?_, ?_⟩ <;> exact h.part (by decide)

theorem fillPRDTEntry_outside {prdtEntry x : ℕ} (h : Outside x prdtEntry HBAPRDTEntry.size) :
    fillPRDTEntry m prdtEntry sectorCount buffer x = m x := by
  rw [fillPRDTEntry, storeBits_outside _ _ _ _ (h.part (by decide)),
    storeBits_outside _ _ _ _ (h.part (by decide)), writeAll_outside]
  simp only [List.forall_mem_cons, List.not_mem_nil, false_imp_iff, implies_true, and_true]
  exact ⟨h.part (by decide), h.part (by decide)⟩

theorem fillTable_outside {x : ℕ} (h : Outside x commandTable filledSize) :
    fillTable m commandTable 1 sector sectorCount buffer x = m x := by
  rw [fillTable, clearedSize_one, fillFIS_outside _ _ _ (h.part (by decide)),
    fillPRDTEntry_outside _ _ _ (h.part (by decide))]
  exact memSet_outside _ _ (h.part (by decide : 0 + HBACommandTable.size ≤ filledSize))

theorem fisWrites_fit : Fit FISRegH2D.size (fisWrites sector sectorCount) := by
  simp only [Fit, fisWrites, List.forall_mem_cons, List.not_mem_nil, false_imp_iff, implies_true,
    and_true]
  decide

theorem fisWrites_apart : (fisWrites sector sectorCount).Pairwise
    fun w w' => Apart w.offset w.size w'.offset w'.size := by
  have hlayout : ((fisWrites sector sectorCount).map fun w => (w.offset, w.size)).Pairwise
      fun p q => Apart p.1 p.2 q.1 q.2 := by
    simp [fisWrites, Apart, FISRegH2D.command, FISRegH2D.lba0, FISRegH2D.lba1, FISRegH2D.lba2,
      FISRegH2D.lba3, FISRegH2D.lba4, FISRegH2D.lba5, FISRegH2D.deviceRegister,
      FISRegH2D.countLow, FISRegH2D.countHigh]
  exact List.pairwise_map.1 hlayout

theorem fillFIS_load {cmdFIS : ℕ} (hspace : cmdFIS + FISRegH2D.size ≤ 2 ^ 64) {offset value : ℕ}
    (h : ⟨offset, 1, value⟩ ∈ fisWrites sector sectorCount) :
    loadLE (fillFIS m cmdFIS sector sectorCount) (cmdFIS + offset) 1 = value % 256 :=
  load_writeAll hspace (fisWrites_fit sector sectorCount) (fisWrites_apart sector sectorCount) _ h

theorem fillTable_byteCount (hspace : commandTable + filledSize ≤ 2 ^ 64) :
    load32 (fillTable m commandTable 1 sector sectorCount buffer)
      (commandTable + HBACommandTable.prdtEntry + HBAPRDTEntry.byteCountUnit) % 2 ^ 22 =
      byteCount sectorCount % 2 ^ 22 := by
  unfold filledSize HBACommandTable.size HBAPRDTEntry.size at hspace
  rw [fillTable]
  generalize memSet m commandTable 0 (clearedSize 1) = cleared
  have hfis : load32 (fillFIS (fillPRDTEntry cleared (commandTable + HBACommandTable.prdtEntry)
        sectorCount buffer) (commandTable + HBACommandTable.commandFIS) sector sectorCount)
      (commandTable + HBACommandTable.prdtEntry + HBAPRDTEntry.byteCountUnit) =
      load32 (fillPRDTEntry cleared (commandTable + HBACommandTable.prdtEntry) sectorCount buffer)
        (commandTable + HBACommandTable.prdtEntry + HBAPRDTEntry.byteCountUnit) := by
    apply loadLE_congr
    intro i hi
    apply fillFIS_outside
    unfold HBACommandTable.prdtEntry HBAPRDTEntry.byteCountUnit HBACommandTable.commandFIS
      FISRegH2D.size
    rw [wrap_of_lt (by omega)]
    exact Outside.of_range (by omega) (by omega)
  rw [hfis, fillPRDTEntry, load32, loadLE_storeBits _ _ (by decide) (by decide),
    loadLE_storeBits _ _ (by decide) (by decide)]
  unfold insertBits
  omega

end Table

def fisByte (m : Mem) (commandTable offset : ℕ) : ℕ :=
  loadLE m (commandTable + HBACommandTable.commandFIS + offset) 1

/-- What a device takes a READ DMA EXT command for: the sector, the number of sectors, and the
    bytes that the only PRDT entry has room for. -/
def decode (m : Mem) (commandTable : ℕ) : ℕ × ℕ × ℕ :=
  let fis := fisByte m commandTable
  (fis FISRegH2D.lba0 + 2 ^ 8 * fis FISRegH2D.lba1 + 2 ^ 16 * fis FISRegH2D.lba2 +
      2 ^ 24 * fis FISRegH2D.lba3 + 2 ^ 32 * fis FISRegH2D.lba4 + 2 ^ 40 * fis FISRegH2D.lba5,
    fis FISRegH2D.countLow + 2 ^ 8 * fis FISRegH2D.countHigh,
    load32 m (commandTable + HBACommandTable.prdtEntry + HBAPRDTEntry.byteCountUnit) % 2 ^ 22 + 1)

/-- The sector that the command names: bytes 0 to 2 and then again from byte 4 on. -/
def namedSector (sector : ℕ) : ℕ := sector % 2 ^ 24 + 2 ^ 24 * (sector / 2 ^ 32 % 2 ^ 24)

theorem fisByte_fillTable (m : Mem) {commandTable sector sectorCount offset value : ℕ} (buffer : ℕ)
    (hspace : commandTable + filledSize ≤ 2 ^ 64)
    (h : ⟨offset, 1, value⟩ ∈ fisWrites sector sectorCount) :
    fisByte (fillTable m commandTable 1 sector sectorCount buffer) commandTable offset =
      value % 256 := by
  apply fillFIS_load _ _ _ _ h
  unfold filledSize HBACommandTable.size HBAPRDTEntry.size at hspace
  unfold HBACommandTable.commandFIS FISRegH2D.size
  omega

theorem decode_fillTable (m : Mem) {commandTable : ℕ} (sector buffer : ℕ) {sectorCount : ℕ}
    (hspace : commandTable + filledSize ≤ 2 ^ 64) (hpos : 1 ≤ sectorCount)
    (hcount : sectorCount < 2 ^ 16) :
    decode (fillTable m commandTable 1 sector sectorCount buffer) commandTable =
      (namedSector sector, sectorCount, (512 * sectorCount - 1) % 2 ^ 22 + 1) := by
  have hfis : ∀ offset value, ⟨offset, 1, value⟩ ∈ fisWrites sector sectorCount →
      fisByte (fillTable m commandTable 1 sector sectorCount buffer) commandTable offset =
        value % 256 := fun _ _ => fisByte_fillTable m buffer hspace
  have hbytes : byteCount sectorCount = 512 * sectorCount - 1 := by
    unfold byteCount uint32
    omega
  rw [decode, fillTable_byteCount m sector sectorCount buffer hspace, hbytes,
    hfis FISRegH2D.lba0 (sector % 2 ^ 32) (by simp [fisWrites]),
    hfis FISRegH2D.lba1 ((sector % 2 ^ 32) >>> 8) (by simp [fisWrites]),
    hfis FISRegH2D.lba2 ((sector % 2 ^ 32) >>> 16) (by simp [fisWrites]),
    hfis FISRegH2D.lba3 ((sector >>> 32) % 2 ^ 32) (by simp [fisWrites]),
    hfis FISRegH2D.lba4 (((sector >>> 32) % 2 ^ 32) >>> 8) (by simp [fisWrites]),
    hfis FISRegH2D.lba5 (((sector >>> 32) % 2 ^ 32) >>> 16) (by simp [fisWrites]),
    hfis FISRegH2D.countLow (sectorCount &&& 0xFF) (by simp [fisWrites]),
    hfis FISRegH2D.countHigh ((sectorCount >>> 8) &&& 0xFF) (by simp [fisWrites])]
  simp only [Prod.mk.injEq, namedSector, Nat.shiftRight_eq_div_pow,
    show (0xFF : ℕ) = 2 ^ 8 - 1 by rfl, Nat.and_two_pow_sub_one_eq_mod]
  refine ⟨?_, ?_, trivial⟩
  · omega
  · omega

theorem namedSector_eq_iff {sector : ℕ} (h : sector < 2 ^ 48) :
    namedSector sector = sector ↔ sector < 2 ^ 24 := by
  have hbytes : sector / 2 ^ 32 = sector / 2 ^ 24 / 2 ^ 8 := by
    rw [Nat.div_div_eq_div_mul]
    rfl
  rw [namedSector, Nat.mod_eq_of_lt (by omega : sector / 2 ^ 32 < 2 ^ 24), hbytes]
  omega

/-! ### The request and the command -/

def Busy (hba : Controller) (poll : ℕ) : Prop :=
  hba.taskFileData poll &&& (ataDevBusy ||| ataDevDrq) ≠ 0

theorem spinLoop_eq_iff (hba : Controller) (fuel spin : ℕ) :
    spinLoop hba.taskFileData fuel spin = spin + fuel ↔
      ∀ poll, spin ≤ poll → poll < spin + fuel → Busy hba poll := by
  induction fuel generalizing spin with
  | zero =>
    simp only [spinLoop, Nat.add_zero, true_iff]
    omega
  | succ fuel ih =>
    rw [spinLoop]
    by_cases hbusy : hba.taskFileData spin &&& (ataDevBusy ||| ataDevDrq) ≠ 0
    · rw [if_pos hbusy, show spin + (fuel + 1) = spin + 1 + fuel by omega, ih]
      constructor
      · intro hall poll hlo hhi
        obtain rfl | hlt := Nat.eq_or_lt_of_le hlo
        · exact hbusy
        · exact hall poll hlt hhi
      · exact fun hall poll hlo hhi => hall poll (by omega) hhi
    · rw [if_neg hbusy]
      constructor
      · omega
      · intro hall
        exact absurd (hall spin le_rfl (by omega)) hbusy

section Request
variable {α : Type} (hba : Controller) (fuel sector sectorCount buffer : ℕ) (s : PortState α)

def NeverReady : Prop := ∀ poll < spinLimit, Busy hba poll

theorem spins_iff : spinLoop hba.taskFileData spinLimit 0 = spinLimit ↔ NeverReady hba := by
  have h := spinLoop_eq_iff hba spinLimit 0
  rw [Nat.zero_add] at h
  rw [h, NeverReady]
  exact forall_congr' fun poll => by simp

def builtTable : ℕ :=
  readTable s.hbaPort.readHeader (fillHeader s.mem s.hbaPort.readHeader)

theorem portRead_fillCommand : (portRead hba fuel sector sectorCount buffer s).1.mem =
    fillCommand s.mem s.hbaPort.readHeader (readTable s.hbaPort.readHeader)
      sector sectorCount buffer := by
  by_cases h : spinLoop hba.taskFileData spinLimit 0 = spinLimit
  · rw [portRead, if_pos h]
    dsimp only
    rfl
  · rw [portRead, if_neg h]
    dsimp only
    rfl

theorem portRead_mem : (portRead hba fuel sector sectorCount buffer s).1.mem =
    fillTable (fillHeader s.mem s.hbaPort.readHeader) (builtTable s) 1
      sector sectorCount buffer := by
  rw [portRead_fillCommand, fillCommand, fillHeader_prdtLength, builtTable]

theorem portRead_issued : (portRead hba fuel sector sectorCount buffer s).1.issued = true ↔
    ¬ NeverReady hba := by
  rw [← spins_iff]
  by_cases h : spinLoop hba.taskFileData spinLimit 0 = spinLimit
  · rw [portRead, if_pos h]
    simp [h]
  · rw [portRead, if_neg h]
    simp [h]

theorem portRead_result (h : NeverReady hba) :
    (portRead hba fuel sector sectorCount buffer s).2 = some false := by
  rw [portRead, if_pos ((spins_iff hba).2 h)]

/-- The byte count of the entry has 22 bits. -/
def Encodable (sectorCount : ℕ) : Prop := 512 * sectorCount ≤ 2 ^ 22

/-- An issued command is the request, and a request that no command stands for is refused. -/
def ReadRoundTrips : Prop :=
  let r := portRead hba fuel sector sectorCount buffer s
  (r.1.issued = true → decode r.1.mem (builtTable s) = (sector, sectorCount, 512 * sectorCount)) ∧
  (¬ Encodable sectorCount → r.1.issued = false ∧ r.2 = some false)

theorem builtTable_space : builtTable s + filledSize ≤ 2 ^ 64 := by
  have h : builtTable s < 2 ^ 32 := loadLE_lt _ _ 4
  have hsize : filledSize = 144 := rfl
  omega

theorem portRead_decode (hpos : 1 ≤ sectorCount) (hcount : sectorCount ≤ 65535) :
    decode (portRead hba fuel sector sectorCount buffer s).1.mem (builtTable s) =
      (namedSector sector, sectorCount, (512 * sectorCount - 1) % 2 ^ 22 + 1) := by
  rw [portRead_mem]
  exact decode_fillTable _ sector buffer (builtTable_space s) hpos (by omega)

/-- Byte 3 of the sector is lost, and the byte count wraps behind 8192 sectors. -/
theorem readRoundTrips_iff (hsector : sector < 2 ^ 48) (hpos : 1 ≤ sectorCount)
    (hcount : sectorCount ≤ 65535) :
    ReadRoundTrips hba fuel sector sectorCount buffer s ↔
      NeverReady hba ∨ (sector < 2 ^ 24 ∧ sectorCount ≤ 8192) := by
  have hdecode := portRead_decode hba fuel sector sectorCount buffer s hpos hcount
  have hissued := portRead_issued hba fuel sector sectorCount buffer s
  unfold ReadRoundTrips Encodable
  dsimp only
  rw [hdecode, hissued]
  by_cases hready : NeverReady hba
  · have hfalse : (portRead hba fuel sector sectorCount buffer s).1.issued = false :=
      eq_false_of_ne_true fun h => hissued.1 h hready
    simp [hready, hfalse, portRead_result hba fuel sector sectorCount buffer s hready]
  · have htrue : (portRead hba fuel sector sectorCount buffer s).1.issued = true :=
      hissued.2 hready
    have hsectors := namedSector_eq_iff hsector
    simp only [hready, htrue, Prod.mk.injEq, hsectors, true_and, not_false_eq_true, true_imp_iff,
      false_or, Bool.true_eq_false, false_and, imp_false, not_not]
    omega

end Request

theorem readyController_ready : ¬ NeverReady readyController :=
  fun h => h 0 (by decide) (by decide)

def blankPort : PortState Unit where
  mem _ := 0#8
  alloc := ()
  hbaPort := ⟨0, 0, 0, 0, 0, 0, 0⟩
  issued := false

theorem readRoundTrips_iff_blank : ReadRoundTrips readyController 1 0 4 0x10000 blankPort ↔
    NeverReady readyController ∨ (0 < 2 ^ 24 ∧ 4 ≤ 8192) :=
  readRoundTrips_iff readyController 1 0 4 0x10000 blankPort (by decide) (by decide) (by decide)

/-- The sector 2^24 is read as sector 0. -/
theorem not_readRoundTrips_blank :
    ¬ ReadRoundTrips readyController 1 (2 ^ 24) 1 0x10000 blankPort := by
  intro h
  have hissued := (portRead_issued readyController 1 (2 ^ 24) 1 0x10000 blankPort).2
    readyController_ready
  have hdecode := portRead_decode readyController 1 (2 ^ 24) 1 0x10000 blankPort
    (by decide) (by decide)
  have hsector := congrArg Prod.fst (hdecode.symm.trans (h.1 hissued))
  exact absurd hsector (by decide)


end Rizzos.AhciRead
