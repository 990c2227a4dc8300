import Rizzos.AhciTables
import Rizzos.AhciPointers
import Rizzos.StructLayout

set_option autoImplicit false

/-! Two runs of `AHCI_Port_Configure` and `AHCI_Port_Read` with the same frames and the same
arguments, over frames that hold different bytes. -/
namespace Rizzos.AhciStaleness
open ByteMemory Memory MemberWrites StructLayout Ahci AhciRead AhciConfigure AhciTables AhciPointers

/-- Header 0 of the command list, and the command FIS and PRDT entry 0 that it leads to. -/
def seenAt (cmdHeader : ℕ) (m : Mem) : List Byte × List Byte × List Byte :=
  let commandTable := headerTable cmdHeader m
  (loadBytes m cmdHeader HBACommandHeader.size,
    loadBytes m (commandTable + HBACommandTable.commandFIS) FISRegH2D.size,
    loadBytes m (commandTable + HBACommandTable.prdtEntry) HBAPRDTEntry.size)

def seen (t : PortState ℕ) : List Byte × List Byte × List Byte :=
  seenAt t.hbaPort.commandList t.mem

def InFrames (frames : ℕ → ℕ) (x : ℕ) : Prop :=
  ∃ k < requestCount, frames k ≤ x ∧ x < frames k + frameSize

def AgreeOff (frames : ℕ → ℕ) (m m' : Mem) : Prop := ∀ x, ¬ InFrames frames x → m' x = m x

section Runs
variable (frames : ℕ → ℕ) (hba hba' : Controller) (fuel fuel' : ℕ) (port : HBAPort)
  (sector sectorCount buffer : ℕ)

def configureAndRead (m : Mem) : Option (PortState ℕ) :=
  (portConfigure (nextFrame frames) hba fuel ⟨⟨m, 0⟩, port, false⟩).map fun s =>
    (portRead hba' fuel' sector sectorCount buffer s).1

/-- What the controller sees of an issued command is the same whatever the frames held. -/
def CommandIndependent : Prop :=
  ∀ m m' t t', AgreeOff frames m m' →
    configureAndRead frames hba hba' fuel fuel' port sector sectorCount buffer m = some t →
    configureAndRead frames hba hba' fuel fuel' port sector sectorCount buffer m' = some t' →
    t.issued = true → seen t = seen t'

def readMem (m : Mem) : Mem :=
  let c := configuredMem frames m
  fillTable (fillHeader c (frames 0 % 2 ^ 32))
    (readTable (frames 0 % 2 ^ 32) c) 1 sector sectorCount buffer

end Runs

section Facts
variable {frames : ℕ → ℕ} {hba hba' : Controller} {fuel fuel' : ℕ} {port : HBAPort}
  {sector sectorCount buffer : ℕ} {m m' : Mem} {t : PortState ℕ}

theorem configureAndRead_cases (hframes : FrameSequence frames)
    (h : configureAndRead frames hba hba' fuel fuel' port sector sectorCount buffer m = some t) :
    t.mem = readMem frames sector sectorCount buffer m ∧ t.hbaPort.commandList = frames 0 ∧
    (t.issued = true ↔ ¬ NeverReady hba') := by
  obtain ⟨s, hs, rfl⟩ := Option.map_eq_some_iff.1 h
  obtain ⟨hmem, hbase, hlist, -⟩ := portConfigure_cases hframes hs
  have hheader : s.hbaPort.readHeader = frames 0 % 2 ^ 32 := by
    rw [HBAPort.readHeader, hbase, BitVec.toNat_ofNat]
  refine ⟨?_, (portRead_commandList _ _ _ _ _ s).trans hlist, portRead_issued _ _ _ _ _ s⟩
  rw [portRead_fillCommand, fillCommand_eq, hheader, hmem, readMem, readTable_fillHeader]
  unfold HBACommandHeader.size
  omega

theorem configureAndRead_returns
    (h : configureAndRead frames hba hba' fuel fuel' port sector sectorCount buffer m = some t)
    (m' : Mem) : ∃ t',
      configureAndRead frames hba hba' fuel fuel' port sector sectorCount buffer m' = some t' := by
  obtain ⟨s, hs, -⟩ := Option.map_eq_some_iff.1 h
  obtain ⟨s', hs'⟩ := (portConfigure_returns_iff ⟨⟨m', 0⟩, port, false⟩).2
    ((portConfigure_returns_iff _).1 ⟨s, hs⟩)
  exact ⟨_, Option.map_eq_some_iff.2 ⟨s', hs', rfl⟩⟩

/-! ### What the two runs have in common -/

/-- The bytes that do not depend on what the frames held, once the table has been written over
    the headers. -/
def Determined (frames : ℕ → ℕ) (x : ℕ) : Prop :=
  ¬ InFrames frames x ∨ (frames 1 ≤ x ∧ x < frames 1 + 256) ∨
  (∃ i < 32, tableFrame frames i ≤ x ∧ x < tableFrame frames i + 256) ∨
  (frames 0 ≤ x ∧ x < frames 0 + filledSize) ∨
  ∃ i < 32, (frames 0 + 32 * i + 2 ≤ x ∧ x < frames 0 + 32 * i + 4) ∨
    (frames 0 + 32 * i + 8 ≤ x ∧ x < frames 0 + 32 * i + 16)

theorem configuredMem_header_same (hframes : FrameSequence frames) (hdistinct : Distinct frames)
    {i x : ℕ} (hi : i < 32) (hx : (frames 0 + 32 * i + 2 ≤ x ∧ x < frames 0 + 32 * i + 4) ∨
      (frames 0 + 32 * i + 8 ≤ x ∧ x < frames 0 + 32 * i + 16)) :
    configuredMem frames m' x = configuredMem frames m x := by
  have hbound := hframes.bound 0 (by decide)
  have hne : ∀ j < 32, tableFrame frames j ≠ frames 0 := fun j hj =>
    hdistinct _ (by unfold requestCount; omega) _ (by decide) (by omega)
  obtain ⟨hlength, haddress⟩ := headersMem_header (m := m) hframes le_rfl hi hne
  obtain ⟨hlength', haddress'⟩ := headersMem_header (m := m') hframes le_rfl hi hne
  rcases hx with ⟨hlo, hhi⟩ | ⟨hlo, hhi⟩
  · have h := loadLE_inj (hlength'.trans hlength.symm) (x - (frames 0 + 32 * i + 2)) (by omega)
    rwa [Nat.add_sub_cancel' hlo, wrap_of_lt (by omega)] at h
  · have h := loadLE_inj (haddress'.trans haddress.symm) (x - (frames 0 + 32 * i + 8)) (by omega)
    rwa [Nat.add_sub_cancel' hlo, wrap_of_lt (by omega)] at h

theorem configuredMem_same (hframes : FrameSequence frames) (hdistinct : Distinct frames)
    (hoff : AgreeOff frames m m') {x : ℕ} (hx : Determined frames x)
    (hlist : ¬ (frames 0 ≤ x ∧ x < frames 0 + filledSize)) :
    configuredMem frames m' x = configuredMem frames m x := by
  have hne : ∀ j < 32, tableFrame frames j ≠ frames 0 := fun j hj =>
    hdistinct _ (by unfold requestCount; omega) _ (by decide) (by omega)
  rcases hx with hout | ⟨hlo, hhi⟩ | ⟨i, hi, hlo, hhi⟩ | hlist' | ⟨i, hi, hheader⟩
  · have hpages : ∀ k < requestCount, x < frames k ∨ frames k + 4096 ≤ x := by
      intro k hk
      by_contra hin
      exact hout ⟨k, hk, by unfold frameSize; omega⟩
    have hkept : ∀ mem : Mem, configuredMem frames mem x = mem x := by
      intro mem
      have hzero := hpages 0 (by decide)
      have hone := hpages 1 (by decide)
      apply headersMem_untouched hframes le_rfl (by omega) (by omega)
      intro j hj
      have := hpages (j + 2) (by unfold requestCount; omega)
      unfold tableFrame
      omega
    rw [hkept, hkept]
    exact hoff x hout
  · have hzero : ∀ mem : Mem, configuredMem frames mem x = 0#8 := by
      intro mem
      have h := headersMem_fis (m := mem) hframes le_rfl
        (hdistinct 1 (by decide) 0 (by decide) (by decide)) (by omega : x - frames 1 < 256)
      rwa [Nat.add_sub_cancel' hlo] at h
    rw [hzero, hzero]
  · have hzero : ∀ mem : Mem, configuredMem frames mem x = 0#8 := by
      intro mem
      have h := headersMem_cleared (m := mem) hframes le_rfl hi (hne i hi)
        (by omega : x - tableFrame frames i < 256)
      rwa [Nat.add_sub_cancel' hlo] at h
    rw [hzero, hzero]
  · exact absurd hlist' hlist
  · exact configuredMem_header_same hframes hdistinct hi hheader

theorem fillPRDTEntry_same {prdtEntry x : ℕ} (hspace : prdtEntry + HBAPRDTEntry.size ≤ 2 ^ 64)
    (hunit : load32 m' (prdtEntry + HBAPRDTEntry.byteCountUnit) =
      load32 m (prdtEntry + HBAPRDTEntry.byteCountUnit))
    (h : (prdtEntry ≤ x ∧ x < prdtEntry + 8) ∨ m' x = m x) :
    fillPRDTEntry m' prdtEntry sectorCount buffer x =
      fillPRDTEntry m prdtEntry sectorCount buffer x := by
  let ws : List Write := [⟨HBAPRDTEntry.dataBaseAddress, 4, buffer⟩,
    ⟨HBAPRDTEntry.dataBaseAddressUpper, 4, buffer >>> 32⟩]
  have hfit : Fit HBAPRDTEntry.size ws := by
    simp only [ws, Fit, List.forall_mem_cons, List.not_mem_nil, false_imp_iff, implies_true,
      and_true]
    decide
  have hapart : ∀ w ∈ ws, Apart HBAPRDTEntry.byteCountUnit 4 w.offset w.size := by
    simp only [ws, List.forall_mem_cons, List.not_mem_nil, false_imp_iff, implies_true, and_true]
    exact ⟨.inr (by decide), .inr (by decide)⟩
  have hkept : ∀ mem : Mem,
      load32 (writeAll prdtEntry ws mem) (prdtEntry + HBAPRDTEntry.byteCountUnit) =
        load32 mem (prdtEntry + HBAPRDTEntry.byteCountUnit) := fun mem =>
    load_writeAll_apart hspace hfit mem (by decide) hapart
  have hwritten : load32 (writeAll prdtEntry ws m') (prdtEntry + HBAPRDTEntry.byteCountUnit) =
      load32 (writeAll prdtEntry ws m) (prdtEntry + HBAPRDTEntry.byteCountUnit) := by
    rw [hkept, hkept, hunit]
  have hbase : writeAll prdtEntry ws m' x = writeAll prdtEntry ws m x := by
    rcases h with ⟨hlo, hhi⟩ | h
    · unfold HBAPRDTEntry.size at hspace
      have hbuffer : ∀ mem : Mem, writeAll prdtEntry ws mem = storeLE mem prdtEntry (4 + 4) buffer := by
        intro mem
        rw [storeLE_add]
        simp [ws, writeAll, HBAPRDTEntry.dataBaseAddress, HBAPRDTEntry.dataBaseAddressUpper,
          Nat.shiftRight_eq_div_pow]
      have hcovered := storeLE_covered m m' prdtEntry buffer (by decide)
        (by omega : x - prdtEntry < 4 + 4)
      rw [Nat.add_sub_cancel' hlo, wrap_of_lt (by omega)] at hcovered
      rw [hbuffer, hbuffer, hcovered]
    · exact writeAll_same h _ _
  apply storeBits_same
  · exact storeBits_same hbase hwritten _ _ _
  · rw [loadLE_storeBits _ _ (by decide) (by decide), loadLE_storeBits _ _ (by decide) (by decide)]
    exact congrArg (insertBits · 0 22 (byteCount sectorCount)) hwritten

theorem fillFIS_same {cmdFIS x : ℕ} (hunit : m' (wrap (cmdFIS + 1)) = m (wrap (cmdFIS + 1)))
    (h : m' x = m x) : fillFIS m' cmdFIS sector sectorCount x = fillFIS m cmdFIS sector sectorCount x := by
  apply writeAll_same
  apply storeBits_same (storeLE_same h _ _ _)
  apply loadLE_congr
  intro i hi
  obtain rfl : i = 0 := by omega
  exact storeLE_same hunit _ _ _

/-- A table is filled alike over two memories that agree on the unit of its byte count; what it
    is cleared of does not count. -/
theorem fillTable_same {commandTable x : ℕ} (hspace : commandTable + filledSize ≤ 2 ^ 64)
    (hunit : load32 m' (commandTable + HBACommandTable.prdtEntry + HBAPRDTEntry.byteCountUnit) =
      load32 m (commandTable + HBACommandTable.prdtEntry + HBAPRDTEntry.byteCountUnit))
    (h : (commandTable ≤ x ∧ x < commandTable + 136) ∨ m' x = m x) :
    fillTable m' commandTable 1 sector sectorCount buffer x =
      fillTable m commandTable 1 sector sectorCount buffer x := by
  unfold filledSize HBACommandTable.size HBAPRDTEntry.size at hspace
  have hclear : ∀ y, (commandTable ≤ y ∧ y < commandTable + 128) ∨ m' y = m y →
      memSet m' commandTable 0 128 y = memSet m commandTable 0 128 y := by
    intro y hy
    by_cases hin : commandTable ≤ y ∧ y < commandTable + 128
    · have hset : ∀ mem : Mem,
          memSet mem commandTable 0 128 (wrap (commandTable + (y - commandTable))) = 0#8 :=
        fun mem => memSet_apply mem 0 (by omega) (by decide)
      rw [Nat.add_sub_cancel' hin.1, wrap_of_lt (by omega)] at hset
      rw [hset, hset]
    · have hout : Outside y commandTable 128 := Outside.of_range (by omega) (by omega)
      rw [memSet_outside _ _ hout, memSet_outside _ _ hout]
      exact hy.resolve_left hin
  have hcleared : ∀ mem : Mem, load32 (memSet mem commandTable 0 128)
      (commandTable + HBACommandTable.prdtEntry + HBAPRDTEntry.byteCountUnit) =
      load32 mem (commandTable + HBACommandTable.prdtEntry + HBAPRDTEntry.byteCountUnit) := by
    intro mem
    apply loadLE_congr
    intro i hi
    unfold HBACommandTable.prdtEntry HBAPRDTEntry.byteCountUnit
    rw [wrap_of_lt (by omega)]
    exact memSet_outside _ _ (Outside.of_range (by omega) (by omega))
  have hentry : ∀ y, (commandTable ≤ y ∧ y < commandTable + 136) ∨ m' y = m y →
      fillPRDTEntry (memSet m' commandTable 0 128) (commandTable + HBACommandTable.prdtEntry)
          sectorCount buffer y =
        fillPRDTEntry (memSet m commandTable 0 128) (commandTable + HBACommandTable.prdtEntry)
          sectorCount buffer y := by
    intro y hy
    have hbytes : (commandTable + HBACommandTable.prdtEntry ≤ y ∧
        y < commandTable + HBACommandTable.prdtEntry + 8) ∨
        memSet m' commandTable 0 128 y = memSet m commandTable 0 128 y := by
      unfold HBACommandTable.prdtEntry
      by_cases hin : commandTable + 128 ≤ y ∧ y < commandTable + 128 + 8
      · exact .inl hin
      · exact .inr (hclear y (hy.imp_left fun hlow => by omega))
    apply fillPRDTEntry_same _ _ hbytes
    · unfold HBACommandTable.prdtEntry HBAPRDTEntry.size
      omega
    · rw [hcleared, hcleared, hunit]
  rw [fillTable, fillTable, clearedSize_one]
  apply fillFIS_same _ (hentry x h)
  rw [HBACommandTable.commandFIS, wrap_of_lt (by omega)]
  exact hentry _ (.inl (by omega))

end Facts

/-! ### The table over the headers -/

/-- The table address that the bytes of a FIS stand for where they lie over header 0. -/
def fisTable (sector sectorCount : ℕ) : ℕ :=
  sector / 2 ^ 32 % 2 ^ 24 + 2 ^ 32 * (sectorCount % 2 ^ 16)

/-- The frame of header 0 is 4 GiB, or a multiple of it, above the command list, so that the
    table is written over the headers; and at the address that header 0 holds then, the
    controller finds determined bytes only. -/
structure Overwritten (frames : ℕ → ℕ) (sector sectorCount : ℕ) : Prop where
  high : 2 ^ 32 ≤ tableFrame frames 0
  same : tableFrame frames 0 % 2 ^ 32 = frames 0
  fis : ∀ i < FISRegH2D.size, Determined frames (wrap (fisTable sector sectorCount + i))
  entry : ∀ i < HBAPRDTEntry.size,
    Determined frames (wrap (fisTable sector sectorCount + HBACommandTable.prdtEntry + i))

section Overwriting
variable {frames : ℕ → ℕ} {sector sectorCount buffer : ℕ} {m m' : Mem}

theorem readTable_configured (hframes : FrameSequence frames) (hdistinct : Distinct frames)
    (hN : frames 0 < 2 ^ 32) : readTable (frames 0 % 2 ^ 32) (configuredMem frames m) =
      tableFrame frames 0 % 2 ^ 32 := by
  have hapart : ¬ Collision frames := by
    rintro ⟨i, hi, heq⟩
    exact hdistinct (i + 2) (by unfold requestCount; omega) 0 (by decide) (by omega) heq
  rw [Nat.mod_eq_of_lt hN, readTable_eq, (headerTable_configured hframes).2 hapart]

theorem readMem_overwritten (hframes : FrameSequence frames) (hdistinct : Distinct frames)
    (hsame : tableFrame frames 0 % 2 ^ 32 = frames 0) (m : Mem) :
    readMem frames sector sectorCount buffer m =
      fillTable (fillHeader (configuredMem frames m) (frames 0)) (frames 0) 1
        sector sectorCount buffer := by
  have hN : frames 0 < 2 ^ 32 := by omega
  rw [readMem, readTable_configured hframes hdistinct hN, hsame, Nat.mod_eq_of_lt hN]

theorem readMem_same (hframes : FrameSequence frames) (hdistinct : Distinct frames)
    (hsame : tableFrame frames 0 % 2 ^ 32 = frames 0) (hoff : AgreeOff frames m m') {x : ℕ}
    (hx : Determined frames x) : readMem frames sector sectorCount buffer m' x =
      readMem frames sector sectorCount buffer m x := by
  have hN : frames 0 < 2 ^ 32 := by omega
  have hheader : ∀ y, frames 0 + 4 ≤ y ∨ y < frames 0 →
      configuredMem frames m' y = configuredMem frames m y →
      fillHeader (configuredMem frames m') (frames 0) y =
        fillHeader (configuredMem frames m) (frames 0) y := by
    intro y hy h
    have hout : Outside y (frames 0) 4 := Outside.of_range (by omega) (by omega)
    rw [fillHeader_outside _ hout, fillHeader_outside _ hout, h]
  -- the last eight bytes of the table lie over the table address of header 4
  have hfour : ∀ y, frames 0 + 136 ≤ y → y < frames 0 + 144 →
      configuredMem frames m' y = configuredMem frames m y := fun y hlo hhi =>
    configuredMem_header_same hframes hdistinct (by decide : 4 < 32) (.inr ⟨by omega, by omega⟩)
  rw [readMem_overwritten hframes hdistinct hsame, readMem_overwritten hframes hdistinct hsame]
  apply fillTable_same
  · unfold filledSize HBACommandTable.size HBAPRDTEntry.size
    omega
  · apply loadLE_congr
    intro i hi
    unfold HBACommandTable.prdtEntry HBAPRDTEntry.byteCountUnit
    rw [wrap_of_lt (by omega)]
    exact hheader _ (by omega) (hfour _ (by omega) (by omega))
  · by_cases hlow : frames 0 ≤ x ∧ x < frames 0 + 136
    · exact .inl hlow
    · apply Or.inr
      apply hheader _ (by omega)
      by_cases hhigh : frames 0 ≤ x ∧ x < frames 0 + 144
      · exact hfour x (by omega) hhigh.2
      · exact configuredMem_same hframes hdistinct hoff hx hhigh

theorem readMem_stale (hframes : FrameSequence frames) (hdistinct : Distinct frames)
    (hsame : tableFrame frames 0 % 2 ^ 32 = frames 0) {x : ℕ} (hx : ¬ Determined frames x) :
    readMem frames sector sectorCount buffer m x = m x := by
  have hN : frames 0 < 2 ^ 32 := by omega
  simp only [Determined, not_or, not_exists, not_and, not_lt] at hx
  obtain ⟨-, hfis, hcleared, htable, hheader⟩ := hx
  unfold filledSize HBACommandTable.size HBAPRDTEntry.size at htable
  rw [readMem_overwritten hframes hdistinct hsame, fillTable_outside, fillHeader_outside]
  · apply headersMem_stale hframes le_rfl
    · intro i hi
      have := (hheader i hi).1
      omega
    · intro i hi
      have := (hheader i hi).2
      omega
    · omega
    · intro i hi
      have := hcleared i hi
      omega
  · exact Outside.of_range (by omega) (by omega)
  · unfold filledSize HBACommandTable.size HBAPRDTEntry.size
    exact Outside.of_range (by omega) (by omega)

theorem fisByte_clear (m : Mem) {commandTable offset : ℕ}
    (hspace : commandTable + filledSize ≤ 2 ^ 64) (hlo : 2 ≤ offset) (hhi : offset < 20)
    (hapart : ∀ w ∈ fisWrites sector sectorCount, Apart offset 1 w.offset w.size) :
    fisByte (fillTable m commandTable 1 sector sectorCount buffer) commandTable offset = 0 := by
  unfold filledSize HBACommandTable.size HBAPRDTEntry.size at hspace
  rw [fisByte, fillTable, HBACommandTable.commandFIS, Nat.add_zero, fillFIS,
    load_writeAll_apart (n := FISRegH2D.size) (by unfold FISRegH2D.size; omega)
      (fisWrites_fit sector sectorCount) _ (by unfold FISRegH2D.size; omega) hapart,
    storeBits, FISRegH2D.commandControlUnit, FISRegH2D.fisType,
    loadLE_storeLE_disjoint _ _ (by omega) (by omega) (by omega),
    loadLE_storeLE_disjoint _ _ (by omega) (by omega) (by omega)]
  apply loadLE_zero
  intro i hi
  rw [fillPRDTEntry_outside, clearedSize_one, Nat.add_assoc]
  · exact memSet_apply _ _ (by unfold HBACommandTable.size; omega) (by decide)
  · unfold HBACommandTable.prdtEntry HBAPRDTEntry.size
    rw [wrap_of_lt (by omega)]
    exact Outside.of_range (by omega) (by omega)

theorem load64_bytes (m : Mem) (a : ℕ) : load64 m a = loadLE m a 1 + 2 ^ 8 * loadLE m (a + 1) 1 +
    2 ^ 16 * loadLE m (a + 2) 1 + 2 ^ 24 * loadLE m (a + 3) 1 + 2 ^ 32 * loadLE m (a + 4) 1 +
    2 ^ 40 * loadLE m (a + 5) 1 + 2 ^ 48 * loadLE m (a + 6) 1 + 2 ^ 56 * loadLE m (a + 7) 1 := by
  simp only [load64, loadLE, Nat.add_assoc, Nat.reduceAdd]
  omega

theorem headerTable_fisTable (m : Mem) {commandTable : ℕ}
    (hspace : commandTable + filledSize ≤ 2 ^ 64) :
    headerTable commandTable (fillTable m commandTable 1 sector sectorCount buffer) =
      fisTable sector sectorCount := by
  have hset : ∀ offset value, ⟨offset, 1, value⟩ ∈ fisWrites sector sectorCount →
      fisByte (fillTable m commandTable 1 sector sectorCount buffer) commandTable offset =
        value % 256 := fun _ _ => fisByte_fillTable m buffer hspace
  have hclear : ∀ offset ∈ [11, 14, 15],
      fisByte (fillTable m commandTable 1 sector sectorCount buffer) commandTable offset = 0 := by
    intro offset hoffset
    apply fisByte_clear m hspace
    · revert offset
      decide
    · revert offset
      decide
    · simp only [fisWrites, List.forall_mem_cons, List.not_mem_nil, false_imp_iff, implies_true,
        and_true]
      revert offset
      unfold Apart
      decide
  have hbyte : ∀ (mem : Mem) (k : ℕ), loadLE mem (commandTable + 8 + k) 1 =
      fisByte mem commandTable (8 + k) := fun mem k =>
    congrArg (loadLE mem · 1) (by unfold HBACommandTable.commandFIS; omega)
  rw [headerTable, HBACommandHeader.commandTableBaseAddress, load64_bytes]
  generalize fillTable m commandTable 1 sector sectorCount buffer = mem at hset hclear
  have h0 : loadLE mem (commandTable + 8) 1 = (sector >>> 32) % 2 ^ 32 % 256 :=
    (hbyte mem 0).trans (hset FISRegH2D.lba3 _ (by simp [fisWrites]))
  have h1 : loadLE mem (commandTable + 8 + 1) 1 = ((sector >>> 32) % 2 ^ 32) >>> 8 % 256 :=
    (hbyte mem 1).trans (hset FISRegH2D.lba4 _ (by simp [fisWrites]))
  have h2 : loadLE mem (commandTable + 8 + 2) 1 = ((sector >>> 32) % 2 ^ 32) >>> 16 % 256 :=
    (hbyte mem 2).trans (hset FISRegH2D.lba5 _ (by simp [fisWrites]))
  have h3 : loadLE mem (commandTable + 8 + 3) 1 = 0 := (hbyte mem 3).trans (hclear 11 (by decide))
  have h4 : loadLE mem (commandTable + 8 + 4) 1 = (sectorCount &&& 0xFF) % 256 :=
    (hbyte mem 4).trans (hset FISRegH2D.countLow _ (by simp [fisWrites]))
  have h5 : loadLE mem (commandTable + 8 + 5) 1 = ((sectorCount >>> 8) &&& 0xFF) % 256 :=
    (hbyte mem 5).trans (hset FISRegH2D.countHigh _ (by simp [fisWrites]))
  have h6 : loadLE mem (commandTable + 8 + 6) 1 = 0 := (hbyte mem 6).trans (hclear 14 (by decide))
  have h7 : loadLE mem (commandTable + 8 + 7) 1 = 0 := (hbyte mem 7).trans (hclear 15 (by decide))
  rw [h0, h1, h2, h3, h4, h5, h6, h7, fisTable]
  simp only [Nat.shiftRight_eq_div_pow, show (0xFF : ℕ) = 2 ^ 8 - 1 by rfl,
    Nat.and_two_pow_sub_one_eq_mod]
  omega

end Overwriting

/-! ### When the two runs are seen alike -/

theorem loadBytes_eq_iff (m m' : Mem) (a n : ℕ) : loadBytes m a n = loadBytes m' a n ↔
    ∀ i < n, m (wrap (a + i)) = m' (wrap (a + i)) := by
  rw [loadBytes, loadBytes, List.map_inj_left]
  exact forall_congr' fun i => imp_congr_left List.mem_range

theorem seenAt_eq_iff (cmdHeader : ℕ) {m m' : Mem}
    (htable : headerTable cmdHeader m' = headerTable cmdHeader m) :
    seenAt cmdHeader m = seenAt cmdHeader m' ↔
      (∀ i < HBACommandHeader.size, m (wrap (cmdHeader + i)) = m' (wrap (cmdHeader + i))) ∧
      (∀ i < FISRegH2D.size, m (wrap (headerTable cmdHeader m + i)) =
        m' (wrap (headerTable cmdHeader m + i))) ∧
      ∀ i < HBAPRDTEntry.size,
        m (wrap (headerTable cmdHeader m + HBACommandTable.prdtEntry + i)) =
          m' (wrap (headerTable cmdHeader m + HBACommandTable.prdtEntry + i)) := by
  rw [seenAt, seenAt, htable, Prod.mk.injEq, Prod.mk.injEq, loadBytes_eq_iff, loadBytes_eq_iff,
    loadBytes_eq_iff, HBACommandTable.commandFIS, Nat.add_zero]

section Independence
variable {frames : ℕ → ℕ} {hba hba' : Controller} {fuel fuel' : ℕ} {port : HBAPort}
  {sector sectorCount buffer : ℕ}

/-- Where commands are issued, independence is about the memories at the end of the runs. -/
theorem commandIndependent_iff_seenAt (hframes : FrameSequence frames)
    (hissued : ∃ m t, configureAndRead frames hba hba' fuel fuel' port sector sectorCount buffer m =
      some t ∧ t.issued = true) :
    CommandIndependent frames hba hba' fuel fuel' port sector sectorCount buffer ↔
      ∀ m m', AgreeOff frames m m' →
        seenAt (frames 0) (readMem frames sector sectorCount buffer m) =
          seenAt (frames 0) (readMem frames sector sectorCount buffer m') := by
  obtain ⟨m₀, t₀, hrun, ht₀⟩ := hissued
  have hready := (configureAndRead_cases hframes hrun).2.2.1 ht₀
  constructor
  · intro h m m' hoff
    obtain ⟨t, ht⟩ := configureAndRead_returns hrun m
    obtain ⟨t', ht'⟩ := configureAndRead_returns hrun m'
    obtain ⟨hmem, hlist, hissued⟩ := configureAndRead_cases hframes ht
    obtain ⟨hmem', hlist', -⟩ := configureAndRead_cases hframes ht'
    have hseen := h m m' t t' hoff ht ht' (hissued.2 hready)
    rwa [seen, seen, hmem, hlist, hmem', hlist'] at hseen
  · intro h m m' t t' hoff ht ht' _
    obtain ⟨hmem, hlist, -⟩ := configureAndRead_cases hframes ht
    obtain ⟨hmem', hlist', -⟩ := configureAndRead_cases hframes ht'
    rw [seen, seen, hmem, hlist, hmem', hlist']
    exact h m m' hoff

theorem agreeOff_update {x : ℕ} (hx : InFrames frames x) (b : Byte) :
    AgreeOff frames 0 (Function.update 0 x b) := by
  intro y hy
  apply Function.update_of_ne
  rintro rfl
  exact hy hx

/-- Memory that is clear outside the command list leads a read of a list from 4 GiB on to a
    table at address 0. -/
theorem readTable_high (hframes : FrameSequence frames) (hdistinct : Distinct frames) {m : Mem}
    (hN : 2 ^ 32 ≤ frames 0) (hclear : ∀ y < 2 ^ 32, m y = 0#8) :
    readTable (frames 0 % 2 ^ 32) (configuredMem frames m) = 0 := by
  have hlist := hframes.aligned 0 (by decide)
  apply loadLE_zero
  intro i hi
  unfold HBACommandHeader.commandTableBaseAddress
  rw [wrap_of_lt (by omega)]
  generalize hx : frames 0 % 2 ^ 32 + 8 + i = x
  have hlow : x < 2 ^ 32 ∧ x % 4096 < 12 := by omega
  by_cases hfis : frames 1 ≤ x ∧ x < frames 1 + 256
  · have h := headersMem_fis (m := m) hframes le_rfl
      (hdistinct 1 (by decide) 0 (by decide) (by decide)) (by omega : x - frames 1 < 256)
    rwa [Nat.add_sub_cancel' hfis.1] at h
  · by_cases htables : ∃ j < 32, tableFrame frames j ≤ x ∧ x < tableFrame frames j + 256
    · obtain ⟨j, hj, hlo, hhi⟩ := htables
      have hne : tableFrame frames j ≠ frames 0 :=
        hdistinct _ (by unfold requestCount; omega) _ (by decide) (by omega)
      have h := headersMem_cleared (m := m) hframes le_rfl hj hne
        (by omega : x - tableFrame frames j < 256)
      rwa [Nat.add_sub_cancel' hlo] at h
    · rw [configuredMem, headersMem_untouched hframes le_rfl (by omega) (by omega), hclear x hlow.1]
      intro j hj
      by_contra hin
      exact htables ⟨j, hj, by omega⟩

theorem readMem_flags (hframes : FrameSequence frames) (hdistinct : Distinct frames) {m : Mem}
    (hapart : ¬ (2 ^ 32 ≤ tableFrame frames 0 ∧ tableFrame frames 0 % 2 ^ 32 = frames 0))
    (hclear : 2 ^ 32 ≤ frames 0 → ∀ y < 2 ^ 32, m y = 0#8) :
    readMem frames sector sectorCount buffer m (frames 0 + 1) = m (frames 0 + 1) := by
  have hlist := hframes.aligned 0 (by decide)
  have hbound := hframes.bound 0 (by decide)
  have hfis := hframes.aligned 1 (by decide)
  have hne := hdistinct 1 (by decide) 0 (by decide) (by decide)
  have htables : ∀ j < 32, tableFrame frames j % 4096 = 0 ∧ tableFrame frames j ≠ frames 0 :=
    fun j hj => ⟨hframes.aligned (j + 2) (by unfold requestCount; omega),
      hdistinct (j + 2) (by unfold requestCount; omega) 0 (by decide) (by omega)⟩
  have htable : readTable (frames 0 % 2 ^ 32) (configuredMem frames m) + filledSize ≤ frames 0 ∨
      frames 0 + 4096 ≤ readTable (frames 0 % 2 ^ 32) (configuredMem frames m) := by
    have hfirst := htables 0 (by decide)
    unfold filledSize HBACommandTable.size HBAPRDTEntry.size
    by_cases hN : frames 0 < 2 ^ 32
    · rw [readTable_configured hframes hdistinct hN]
      omega
    · rw [readTable_high hframes hdistinct (by omega) (hclear (by omega))]
      omega
  unfold filledSize HBACommandTable.size HBAPRDTEntry.size at htable
  have hspace : readTable (frames 0 % 2 ^ 32) (configuredMem frames m) < 2 ^ 32 := loadLE_lt _ _ 4
  rw [readMem, fillTable_outside, fillHeader_other]
  · apply headersMem_stale hframes le_rfl (by omega) (by omega) (by omega)
    intro j hj
    have := htables j hj
    omega
  · unfold HBACommandHeader.flags
    exact Outside.of_range (by omega) (by omega)
  · unfold HBACommandHeader.prdtLength
    exact Outside.of_range (by omega) (by omega)
  · unfold filledSize HBACommandTable.size HBAPRDTEntry.size
    exact Outside.of_range (by omega) (by omega)

theorem overwritten_of_independent (hframes : FrameSequence frames) (hdistinct : Distinct frames)
    (h : ∀ m m', AgreeOff frames m m' →
      seenAt (frames 0) (readMem frames sector sectorCount buffer m) =
        seenAt (frames 0) (readMem frames sector sectorCount buffer m')) :
    2 ^ 32 ≤ tableFrame frames 0 ∧ tableFrame frames 0 % 2 ^ 32 = frames 0 := by
  by_contra hapart
  have hbound := hframes.bound 0 (by decide)
  have hin : InFrames frames (frames 0 + 1) :=
    ⟨0, by decide, by unfold frameSize; omega⟩
  have hheader := congrArg Prod.fst (h _ _ (agreeOff_update hin 1))
  have hbyte := (loadBytes_eq_iff _ _ _ _).1 hheader 1 (by decide)
  rw [wrap_of_lt (by omega), readMem_flags (m := 0) hframes hdistinct hapart fun _ _ _ => rfl,
    readMem_flags hframes hdistinct hapart, Function.update_self, Pi.zero_apply] at hbyte
  · exact absurd hbyte (by decide)
  · intro hN y hy
    exact Function.update_of_ne (by omega) _ _

/-- What the controller sees does not depend on old contents only where the table is written
    over the headers. -/
theorem commandIndependent_iff (hframes : FrameSequence frames) (hdistinct : Distinct frames)
    (hissued : ∃ m t, configureAndRead frames hba hba' fuel fuel' port sector sectorCount buffer m =
      some t ∧ t.issued = true) :
    CommandIndependent frames hba hba' fuel fuel' port sector sectorCount buffer ↔
      Overwritten frames sector sectorCount := by
  rw [commandIndependent_iff_seenAt hframes hissued]
  have hspace : frames 0 + filledSize ≤ 2 ^ 64 := by
    have := hframes.bound 0 (by decide)
    unfold filledSize HBACommandTable.size HBAPRDTEntry.size
    omega
  have htable : tableFrame frames 0 % 2 ^ 32 = frames 0 → ∀ m,
      headerTable (frames 0) (readMem frames sector sectorCount buffer m) =
        fisTable sector sectorCount := by
    intro hsame m
    rw [readMem_overwritten hframes hdistinct hsame]
    exact headerTable_fisTable _ hspace
  constructor
  · intro h
    obtain ⟨hhigh, hsame⟩ := overwritten_of_independent hframes hdistinct h
    have hdetermined : ∀ x, (∀ m m', AgreeOff frames m m' →
        readMem frames sector sectorCount buffer m x =
          readMem frames sector sectorCount buffer m' x) → Determined frames x := by
      intro x hx
      by_contra hnot
      have hin : InFrames frames x := by
        by_contra hout
        exact hnot (.inl hout)
      have hbyte := hx _ _ (agreeOff_update hin 1)
      rw [readMem_stale hframes hdistinct hsame hnot, readMem_stale hframes hdistinct hsame hnot,
        Function.update_self, Pi.zero_apply] at hbyte
      exact absurd hbyte (by decide)
    have hseen := fun m m' hoff => (seenAt_eq_iff (frames 0)
      ((htable hsame m').trans (htable hsame m).symm)).1 (h m m' hoff)
    refine ⟨hhigh, hsame, fun i hi => ?_, fun i hi => ?_⟩
    · apply hdetermined
      intro m m' hoff
      have := (hseen m m' hoff).2.1 i hi
      rwa [htable hsame m] at this
    · apply hdetermined
      intro m m' hoff
      have := (hseen m m' hoff).2.2 i hi
      rwa [htable hsame m] at this
  · intro h m m' hoff
    rw [seenAt_eq_iff (frames 0) ((htable h.same m').trans (htable h.same m).symm),
      htable h.same m]
    have hsame : ∀ x, Determined frames x → readMem frames sector sectorCount buffer m x =
        readMem frames sector sectorCount buffer m' x :=
      fun x hx => (readMem_same hframes hdistinct h.same hoff hx).symm
    refine ⟨fun i hi => hsame _ ?_, fun i hi => hsame _ (h.fis i hi),
      fun i hi => hsame _ (h.entry i hi)⟩
    have := hframes.bound 0 (by decide)
    unfold HBACommandHeader.size at hi
    rw [wrap_of_lt (by omega)]
    refine .inr (.inr (.inr (.inl ⟨by omega, ?_⟩)))
    unfold filledSize HBACommandTable.size HBAPRDTEntry.size
    omega

end Independence

theorem configureAndRead_ready (frames : ℕ → ℕ) (port : HBAPort) (sector sectorCount buffer : ℕ) :
    ∃ m t, configureAndRead frames readyController readyController 1 1 port
      sector sectorCount buffer m = some t ∧ t.issued = true := by
  obtain ⟨s, hs⟩ := portConfigure_ready frames ⟨⟨0, 0⟩, port, false⟩
  refine ⟨0, (portRead readyController 1 sector sectorCount buffer s).1, ?_, ?_⟩
  · rw [configureAndRead, hs, Option.map_some]
  · exact (portRead_issued readyController 1 sector sectorCount buffer s).2 readyController_ready

theorem commandIndependent_iff_consecutive :
    CommandIndependent consecutiveFrames readyController readyController 1 1
      ⟨0, 0, 0, 0, 0, 0, 0⟩ 0 4 0x100000 ↔ Overwritten consecutiveFrames 0 4 :=
  commandIndependent_iff consecutiveFrames_sequence consecutiveFrames_distinct
    (configureAndRead_ready _ _ _ _ _)

theorem not_commandIndependent_consecutive :
    ¬ CommandIndependent consecutiveFrames readyController readyController 1 1
      ⟨0, 0, 0, 0, 0, 0, 0⟩ 0 4 0x100000 := by
  intro h
  have hseen := (commandIndependent_iff_seenAt consecutiveFrames_sequence
    (configureAndRead_ready _ _ _ _ _)).1 h
  have hhigh := (overwritten_of_independent consecutiveFrames_sequence
    consecutiveFrames_distinct hseen).1
  exact absurd hhigh (by decide)

end Rizzos.AhciStaleness
