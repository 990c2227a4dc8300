import Rizzos.AhciConfigure
import Rizzos.AhciRead

set_option autoImplicit false

/-! The pointers that the controller follows are pairs of 32-bit words, and `AHCI_Port_Read`
follows their lower halves. -/
namespace Rizzos.AhciPointers
open ByteMemory Memory MemberWrites Ahci AhciRead AhciConfigure

def headerTable (cmdHeader : ℕ) (m : Mem) : ℕ :=
  load64 m (cmdHeader + HBACommandHeader.commandTableBaseAddress)

theorem readTable_eq (cmdHeader : ℕ) (m : Mem) :
    readTable cmdHeader m = headerTable cmdHeader m % 2 ^ 32 := by
  have h := loadLE_add m (cmdHeader + HBACommandHeader.commandTableBaseAddress) 4 4
  have hlow : readTable cmdHeader m < 2 ^ 32 := loadLE_lt _ _ 4
  rw [headerTable, load64, h]
  change readTable cmdHeader m = (readTable cmdHeader m + 256 ^ 4 * _) % 2 ^ 32
  omega

/-- The states that a port may be in after it was configured: reads, and writes by others that
    leave the table address of the first header alone. -/
inductive Later (s : PortState ℕ) : PortState ℕ → Prop
  | configured : Later s s
  | read (hba : Controller) (fuel sector sectorCount buffer : ℕ) {t : PortState ℕ} :
    Later s t → Later s (portRead hba fuel sector sectorCount buffer t).1
  | other (mem : Mem) (alloc : ℕ) {t : PortState ℕ} : Later s t →
    (∀ x, t.hbaPort.commandList + 8 ≤ x → x < t.hbaPort.commandList + 16 → mem x = t.mem x) →
    Later s { t with mem, alloc }

theorem Later.trans {s t u : PortState ℕ} (h : Later s t) (h' : Later t u) : Later s u := by
  induction h' with
  | configured => exact h
  | read hba fuel sector sectorCount buffer _ ih =>
    exact .read hba fuel sector sectorCount buffer ih
  | other mem alloc _ hkept ih => exact .other mem alloc ih hkept

section Reads
variable (hba : Controller) (fuel sector sectorCount buffer : ℕ) (t : PortState ℕ)

/-- The read fills the header and the table that the controller looks at, and nothing else. -/
structure FillsConfigured : Prop where
  filled : (portRead hba fuel sector sectorCount buffer t).1.mem =
    fillCommand t.mem t.hbaPort.commandList (headerTable t.hbaPort.commandList)
      sector sectorCount buffer
  outside : ∀ x, Outside x t.hbaPort.commandList HBACommandHeader.size →
    Outside x (headerTable t.hbaPort.commandList t.mem) filledSize →
    (portRead hba fuel sector sectorCount buffer t).1.mem x = t.mem x

theorem portRead_commandListBase :
    (portRead hba fuel sector sectorCount buffer t).1.hbaPort.commandListBase =
      t.hbaPort.commandListBase := by
  by_cases h : spinLoop hba.taskFileData spinLimit 0 = spinLimit
  · rw [portRead, if_pos h]
  · rw [portRead, if_neg h]

theorem portRead_commandList :
    (portRead hba fuel sector sectorCount buffer t).1.hbaPort.commandList =
      t.hbaPort.commandList := by
  by_cases h : spinLoop hba.taskFileData spinLimit 0 = spinLimit
  · rw [portRead, if_pos h]
    rfl
  · rw [portRead, if_neg h]
    rfl

variable {t}

theorem headerTable_fillHeader (m : Mem) {cmdHeader : ℕ}
    (hspace : cmdHeader + HBACommandHeader.size ≤ 2 ^ 64) :
    headerTable cmdHeader (fillHeader m cmdHeader) = headerTable cmdHeader m :=
  fillHeader_load m hspace (by decide) (by decide)

theorem fillCommand_eq (m : Mem) {cmdHeader : ℕ} (commandTable : Mem → ℕ) :
    fillCommand m cmdHeader commandTable sector sectorCount buffer =
      fillTable (fillHeader m cmdHeader) (commandTable (fillHeader m cmdHeader)) 1
        sector sectorCount buffer := by
  rw [fillCommand, fillHeader_prdtLength]

/-- Pointers below 4 GiB are followed as the controller follows them. -/
theorem FillsConfigured.of_low (hbase : t.hbaPort.readHeader = t.hbaPort.commandList)
    (htable : headerTable t.hbaPort.commandList t.mem < 2 ^ 32) :
    FillsConfigured hba fuel sector sectorCount buffer t := by
  have hbound : t.hbaPort.commandList < 2 ^ 32 := hbase ▸ t.hbaPort.commandListBase.isLt
  have hspace : t.hbaPort.commandList + HBACommandHeader.size ≤ 2 ^ 64 := by
    unfold HBACommandHeader.size
    omega
  have hkept := headerTable_fillHeader t.mem hspace
  have hfilled : (portRead hba fuel sector sectorCount buffer t).1.mem =
      fillCommand t.mem t.hbaPort.commandList (headerTable t.hbaPort.commandList)
        sector sectorCount buffer := by
    rw [portRead_fillCommand, hbase, fillCommand_eq, fillCommand_eq, readTable_eq, hkept,
      Nat.mod_eq_of_lt htable]
  refine ⟨hfilled, fun x hheader htable => ?_⟩
  rw [hfilled, fillCommand_eq, hkept, fillTable_outside _ _ _ _ htable]
  exact fillHeader_outside t.mem fun i hi => hheader i (by unfold HBACommandHeader.size; omega)

theorem fillCommand_outside (m : Mem) {cmdHeader x : ℕ} (commandTable : Mem → ℕ)
    (hheader : Outside x cmdHeader 4)
    (htable : Outside x (commandTable (fillHeader m cmdHeader)) filledSize) :
    fillCommand m cmdHeader commandTable sector sectorCount buffer x = m x := by
  rw [fillCommand_eq, fillTable_outside _ _ _ _ htable, fillHeader_outside _ hheader]

end Reads

/-! ### From 4 GiB on -/

/-- The two bases agree with the frame `N`, and header 0 points to the table `T`. -/
structure Pointed (N T : ℕ) (t : PortState ℕ) : Prop where
  base : t.hbaPort.readHeader = N % 2 ^ 32
  list : t.hbaPort.commandList = N
  table : headerTable N t.mem = T

section Pointers
variable {N T : ℕ} {s t : PortState ℕ}

/-- No step moves the pointers while the table does not lie over them. -/
theorem Later.pointed (hlater : Later s t) (h : Pointed N T s) (hN : N < 2 ^ 32)
    (hT : T < 2 ^ 32) (hapart : T + filledSize ≤ N + 8 ∨ N + 16 ≤ T) : Pointed N T t := by
  induction hlater with
  | configured => exact h
  | @read hba fuel sector sectorCount buffer t _ ih =>
    have hbase : t.hbaPort.readHeader = t.hbaPort.commandList := by
      rw [ih.base, ih.list, Nat.mod_eq_of_lt hN]
    have hfilled := (FillsConfigured.of_low hba fuel sector sectorCount buffer hbase
      (by rw [ih.list, ih.table]; exact hT)).filled
    refine ⟨?_, (portRead_commandList _ _ _ _ _ t).trans ih.list, ?_⟩
    · rw [HBAPort.readHeader, portRead_commandListBase]
      exact ih.base
    · rw [hfilled, ih.list, ← ih.table]
      apply loadLE_congr
      intro k hk
      rw [HBACommandHeader.commandTableBaseAddress, wrap_of_lt (by omega)]
      apply fillCommand_outside
      · exact Outside.of_range (by omega) (by omega)
      · rw [headerTable_fillHeader _ (by unfold HBACommandHeader.size; omega), ih.table]
        unfold filledSize HBACommandTable.size HBAPRDTEntry.size at *
        exact Outside.of_range (by omega) (by omega)
  | other mem alloc _ hkept ih =>
    refine ⟨ih.base, ih.list, ?_⟩
    rw [← ih.table]
    apply loadLE_congr
    intro k hk
    rw [HBACommandHeader.commandTableBaseAddress, wrap_of_lt (by omega)]
    rw [ih.list] at hkept
    exact hkept _ (by omega) (by omega)

theorem fillTable_fisType (m : Mem) (commandTable sector sectorCount buffer : ℕ) :
    fillTable m commandTable 1 sector sectorCount buffer (wrap commandTable) = 0x27#8 := by
  have hrest : ∀ offset size, 0 < offset → offset + size ≤ 20 →
      Outside (wrap commandTable) (commandTable + offset) size := by
    intro offset size hpos hin i hi
    unfold wrap
    omega
  rw [fillTable, HBACommandTable.commandFIS, Nat.add_zero, fillFIS, fisWrites, writeAll_outside]
  · rw [storeBits_outside _ _ _ _ (hrest _ _ (by decide) (by decide))]
    exact load8_store8 _ commandTable _
  · simp only [List.forall_mem_cons, List.not_mem_nil, false_imp_iff, implies_true, and_true]
    refine ⟨?_, ?_, ?_, ?_, ?_, ?_, ?_, ?_, ?_, ?_⟩ <;> exact hrest _ _ (by decide) (by decide)

theorem not_fills_of_high_table (hpointed : Pointed N T t) (hN : N + 4096 ≤ 2 ^ 32)
    (hT : 2 ^ 32 ≤ T) :
    ∃ t', Later t t' ∧ ¬ FillsConfigured readyController 1 0 0 0 t' := by
  have hbound : T < 2 ^ 64 := hpointed.table ▸ load64_lt _ _
  -- somebody else clears the first byte of the table before the read
  refine ⟨{ t with mem := Function.update t.mem T 0#8 }, .other _ _ .configured ?_, ?_⟩
  · intro x hx hx'
    rw [hpointed.list] at hx hx'
    exact Function.update_of_ne (by omega) _ _
  · intro hfills
    have hspace : N + HBACommandHeader.size ≤ 2 ^ 64 := by
      unfold HBACommandHeader.size
      omega
    have htable : headerTable N (Function.update t.mem T 0#8) = T := by
      rw [← hpointed.table]
      apply loadLE_congr
      intro k hk
      rw [hpointed.table, HBACommandHeader.commandTableBaseAddress, wrap_of_lt (by omega)]
      exact Function.update_of_ne (by omega) _ _
    have hfilled := congrFun hfills.filled T
    rw [portRead_fillCommand] at hfilled
    change fillCommand (Function.update t.mem T 0#8) t.hbaPort.readHeader
        (readTable t.hbaPort.readHeader) 0 0 0 T =
      fillCommand (Function.update t.mem T 0#8) t.hbaPort.commandList
        (headerTable t.hbaPort.commandList) 0 0 0 T at hfilled
    rw [hpointed.base, hpointed.list, Nat.mod_eq_of_lt (by omega)] at hfilled
    have hleft : fillCommand (Function.update t.mem T 0#8) N (readTable N) 0 0 0 T = 0#8 := by
      rw [fillCommand_outside]
      · exact Function.update_self _ _ _
      · exact Outside.of_range (by omega) (by omega)
      · rw [readTable_eq, headerTable_fillHeader _ hspace, htable]
        unfold filledSize HBACommandTable.size HBAPRDTEntry.size
        exact Outside.of_range (by omega) (by omega)
    have hright : fillCommand (Function.update t.mem T 0#8) N (headerTable N) 0 0 0 T =
        0x27#8 := by
      rw [fillCommand_eq, headerTable_fillHeader _ hspace, htable]
      have hfirst := fillTable_fisType (fillHeader (Function.update t.mem T 0#8) N) T 0 0 0
      rwa [wrap_of_lt hbound] at hfirst
    rw [hleft, hright] at hfilled
    exact absurd hfilled (by decide)

end Pointers

/-! ### A configured port -/

section Configured
variable {frames : ℕ → ℕ} {hba : Controller} {fuel : ℕ} {m : Mem} {port : HBAPort} {issued : Bool}
  {s : PortState ℕ}

/-- A frame of the headers is the command list's own. -/
def Collision (frames : ℕ → ℕ) : Prop := ∃ i < 32, tableFrame frames i = frames 0

/-- The command list lies below 4 GiB and so does the table of header 0, which is clear, and so
    points to address 0, after a collision. There the list itself may not be. -/
structure PointersReach (frames : ℕ → ℕ) : Prop where
  list : frames 0 < 2 ^ 32
  table : ¬ Collision frames → tableFrame frames 0 < 2 ^ 32
  apart : Collision frames → frames 0 ≠ 0

def ReadsWhereConfigured (s : PortState ℕ) : Prop :=
  ∀ t, Later s t → ∀ hba fuel sector sectorCount buffer,
    FillsConfigured hba fuel sector sectorCount buffer t

theorem headerTable_configured (hframes : FrameSequence frames) :
    (Collision frames → headerTable (frames 0) (configuredMem frames m) = 0) ∧
    (¬ Collision frames →
      headerTable (frames 0) (configuredMem frames m) = tableFrame frames 0) := by
  have hbound := hframes.bound 0 (by decide)
  constructor
  · intro hcollision
    apply loadLE_zero
    intro i hi
    rw [HBACommandHeader.commandTableBaseAddress, wrap_of_lt (by omega), Nat.add_assoc]
    exact headersMem_collision hframes le_rfl hcollision (by omega)
  · intro hcollision
    have h := headersMem_header (m := m) hframes le_rfl (by decide : 0 < 32)
      fun j hj heq => hcollision ⟨j, hj, heq⟩
    exact h.2

theorem prdtLength_configured (hframes : FrameSequence frames) :
    load16 (configuredMem frames m) (frames 0 + HBACommandHeader.prdtLength) ≠ 1 := by
  have hbound := hframes.bound 0 (by decide)
  by_cases hcollision : Collision frames
  · have hzero : load16 (configuredMem frames m) (frames 0 + HBACommandHeader.prdtLength) = 0 := by
      apply loadLE_zero
      intro i hi
      rw [HBACommandHeader.prdtLength, wrap_of_lt (by omega), Nat.add_assoc]
      exact headersMem_collision hframes le_rfl hcollision (by omega)
    rw [hzero]
    decide
  · have h := headersMem_header (m := m) hframes le_rfl (by decide : 0 < 32)
      fun j hj heq => hcollision ⟨j, hj, heq⟩
    have height : load16 (configuredMem frames m) (frames 0 + HBACommandHeader.prdtLength) = 8 :=
      h.1
    rw [height]
    decide

theorem pointed_configured (hframes : FrameSequence frames)
    (h : portConfigure (nextFrame frames) hba fuel ⟨⟨m, 0⟩, port, issued⟩ = some s) :
    Pointed (frames 0) (headerTable (frames 0) (configuredMem frames m)) s := by
  obtain ⟨hmem, hbase, hlist, -⟩ := portConfigure_cases hframes h
  refine ⟨?_, hlist, by rw [hmem]⟩
  rw [HBAPort.readHeader, hbase, BitVec.toNat_ofNat]

theorem not_fills_of_high_list (hframes : FrameSequence frames)
    (h : portConfigure (nextFrame frames) hba fuel ⟨⟨m, 0⟩, port, issued⟩ = some s)
    (hN : 2 ^ 32 ≤ frames 0) :
    ∃ t, Later s t ∧ ¬ FillsConfigured readyController 1 0 0 0 t := by
  have hpointed := pointed_configured hframes h
  obtain ⟨hmem, -⟩ := portConfigure_cases hframes h
  have haligned := hframes.aligned 0 (by decide)
  have hbound := hframes.bound 0 (by decide)
  -- somebody else clears all memory but the page of the command list
  let mem : Mem := fun x => if frames 0 ≤ x ∧ x < frames 0 + 4096 then s.mem x else 0#8
  have hinside : ∀ x, frames 0 ≤ x → x < frames 0 + 4096 → mem x = s.mem x :=
    fun x hx hx' => if_pos ⟨hx, hx'⟩
  have houtside : ∀ x, x < frames 0 → mem x = 0#8 := fun x hx => if_neg (by omega)
  refine ⟨{ s with mem }, .other _ _ .configured ?_, ?_⟩
  · intro x hx hx'
    rw [hpointed.list] at hx hx'
    exact hinside x (by omega) (by omega)
  · intro hfills
    have hspace : frames 0 + HBACommandHeader.size ≤ 2 ^ 64 := by
      unfold HBACommandHeader.size
      omega
    have hlow : frames 0 % 2 ^ 32 + 4096 ≤ 2 ^ 32 := by omega
    have hfilled := congrArg (load16 · (frames 0 + HBACommandHeader.prdtLength)) hfills.filled
    dsimp only at hfilled
    rw [portRead_fillCommand] at hfilled
    change load16 (fillCommand mem s.hbaPort.readHeader (readTable s.hbaPort.readHeader) 0 0 0) _ =
      load16 (fillCommand mem s.hbaPort.commandList (headerTable s.hbaPort.commandList) 0 0 0) _
      at hfilled
    rw [hpointed.base, hpointed.list] at hfilled
    have hleft : load16 (fillCommand mem (frames 0 % 2 ^ 32) (readTable (frames 0 % 2 ^ 32)) 0 0 0)
        (frames 0 + HBACommandHeader.prdtLength) =
        load16 s.mem (frames 0 + HBACommandHeader.prdtLength) := by
      have hzero : readTable (frames 0 % 2 ^ 32) mem = 0 := by
        apply loadLE_zero
        intro i hi
        rw [HBACommandHeader.commandTableBaseAddress, wrap_of_lt (by omega)]
        exact houtside _ (by omega)
      apply loadLE_congr
      intro i hi
      rw [HBACommandHeader.prdtLength, wrap_of_lt (by omega), fillCommand_outside]
      · exact hinside _ (by omega) (by omega)
      · exact Outside.of_range (by omega) (by omega)
      · rw [readTable_fillHeader _ (by unfold HBACommandHeader.size; omega), hzero]
        unfold filledSize HBACommandTable.size HBAPRDTEntry.size
        exact Outside.of_range (by omega) (by omega)
    have hright : load16 (fillCommand mem (frames 0) (headerTable (frames 0)) 0 0 0)
        (frames 0 + HBACommandHeader.prdtLength) = 1 := by
      have htable : headerTable (frames 0) mem = headerTable (frames 0) (configuredMem frames m) := by
        apply loadLE_congr
        intro i hi
        rw [HBACommandHeader.commandTableBaseAddress, wrap_of_lt (by omega), ← hmem]
        exact hinside _ (by omega) (by omega)
      have hapart : headerTable (frames 0) mem % 4096 = 0 ∧
          headerTable (frames 0) mem ≠ frames 0 ∧ headerTable (frames 0) mem < 2 ^ 52 := by
        rw [htable]
        by_cases hcollision : Collision frames
        · rw [(headerTable_configured hframes).1 hcollision]
          omega
        · rw [(headerTable_configured hframes).2 hcollision]
          exact ⟨hframes.aligned 2 (by decide), fun heq => hcollision ⟨0, by decide, heq⟩,
            hframes.bound 2 (by decide)⟩
      rw [fillCommand_eq, headerTable_fillHeader _ hspace]
      refine Eq.trans (loadLE_congr ?_) (fillHeader_prdtLength mem)
      intro i hi
      rw [HBACommandHeader.prdtLength, wrap_of_lt (by omega)]
      apply fillTable_outside
      unfold filledSize HBACommandTable.size HBAPRDTEntry.size
      exact Outside.of_range (by omega) (by omega)
    rw [hleft, hright, hmem] at hfilled
    exact prdtLength_configured hframes hfilled

/-- After one read the port of a table that lies over its own header points elsewhere. -/
theorem headerTable_read_collision {t : PortState ℕ} (hpointed : Pointed 0 0 t) :
    2 ^ 32 ≤ headerTable 0 (portRead readyController 1 0 1 0 t).1.mem := by
  have hcount : fisByte (portRead readyController 1 0 1 0 t).1.mem 0 FISRegH2D.countLow = 1 := by
    rw [portRead_fillCommand, hpointed.base, Nat.zero_mod, fillCommand_eq, readTable_eq,
      headerTable_fillHeader _ (by decide), hpointed.table]
    have h : ⟨FISRegH2D.countLow, 1, 1⟩ ∈ fisWrites 0 1 := by simp [fisWrites]
    exact fisByte_fillTable _ 0 (by decide) h
  rw [headerTable, load64, loadLE_add _ _ 4 4,
    loadLE_add _ (0 + HBACommandHeader.commandTableBaseAddress + 4) 1 3]
  change loadLE _ (0 + HBACommandHeader.commandTableBaseAddress + 4) 1 = 1 at hcount
  rw [hcount]
  omega

/-- The reads of a configured port reach the command list and the table exactly when both lie
    below 4 GiB, and not on top of each other. -/
theorem readsWhereConfigured_iff (hframes : FrameSequence frames)
    (h : portConfigure (nextFrame frames) hba fuel ⟨⟨m, 0⟩, port, issued⟩ = some s) :
    ReadsWhereConfigured s ↔ PointersReach frames := by
  have hpointed := pointed_configured hframes h
  obtain ⟨hcollides, happart⟩ := headerTable_configured (m := m) hframes
  constructor
  · intro hreads
    have hlow : frames 0 < 2 ^ 32 := by
      by_contra hhigh
      obtain ⟨t, hlater, hnot⟩ := not_fills_of_high_list hframes h (by omega)
      exact hnot (hreads t hlater _ _ _ _ _)
    have haligned := hframes.aligned 0 (by decide)
    refine ⟨hlow, fun hcollision => ?_, fun hcollision hzero => ?_⟩
    · by_contra hhigh
      rw [happart hcollision] at hpointed
      obtain ⟨t, hlater, hnot⟩ := not_fills_of_high_table hpointed (by omega) (by omega)
      exact hnot (hreads t hlater _ _ _ _ _)
    · rw [hcollides hcollision, hzero] at hpointed
      have hread : Later s (portRead readyController 1 0 1 0 s).1 := .read _ _ _ _ _ .configured
      have hmoved : Pointed 0 (headerTable 0 (portRead readyController 1 0 1 0 s).1.mem)
          (portRead readyController 1 0 1 0 s).1 := by
        refine ⟨?_, (portRead_commandList _ _ _ _ _ s).trans hpointed.list, rfl⟩
        rw [HBAPort.readHeader, portRead_commandListBase]
        exact hpointed.base
      obtain ⟨t, hlater, hnot⟩ := not_fills_of_high_table hmoved (by decide)
        (headerTable_read_collision hpointed)
      exact hnot (hreads t (hread.trans hlater) _ _ _ _ _)
  · intro hreach t hlater hba fuel sector sectorCount buffer
    have htable : headerTable (frames 0) (configuredMem frames m) < 2 ^ 32 ∧
        (headerTable (frames 0) (configuredMem frames m) + 4096 ≤ frames 0 ∨
          frames 0 + 4096 ≤ headerTable (frames 0) (configuredMem frames m)) := by
      have haligned := hframes.aligned 0 (by decide)
      by_cases hcollision : Collision frames
      · have := hreach.apart hcollision
        rw [hcollides hcollision]
        omega
      · have hfirst : tableFrame frames 0 % 4096 = 0 := hframes.aligned 2 (by decide)
        have hne : tableFrame frames 0 ≠ frames 0 := fun heq => hcollision ⟨0, by decide, heq⟩
        have := hreach.table hcollision
        rw [happart hcollision]
        omega
    have hlater := hlater.pointed hpointed hreach.list htable.1 (by
      unfold filledSize HBACommandTable.size HBAPRDTEntry.size
      omega)
    apply FillsConfigured.of_low
    · rw [hlater.base, hlater.list, Nat.mod_eq_of_lt hreach.list]
    · rw [hlater.list, hlater.table]
      exact htable.1

end Configured

theorem readsWhereConfigured_iff_consecutive :
    ∃ s, portConfigure (nextFrame consecutiveFrames) readyController 1
        ⟨⟨0, 0⟩, ⟨0, 0, 0, 0, 0, 0, 0⟩, false⟩ = some s ∧
      (ReadsWhereConfigured s ↔ PointersReach consecutiveFrames) := by
  obtain ⟨s, hs⟩ := portConfigure_ready consecutiveFrames ⟨⟨0, 0⟩, ⟨0, 0, 0, 0, 0, 0, 0⟩, false⟩
  exact ⟨s, hs, readsWhereConfigured_iff consecutiveFrames_sequence hs⟩

def highFrames (k : ℕ) : ℕ := 2 ^ 32 + 4096 * k

theorem not_readsWhereConfigured_high :
    ∃ s, portConfigure (nextFrame highFrames) readyController 1
        ⟨⟨0, 0⟩, ⟨0, 0, 0, 0, 0, 0, 0⟩, false⟩ = some s ∧ ¬ ReadsWhereConfigured s := by
  have hframes : FrameSequence highFrames := by
    constructor
    · intro k _
      unfold highFrames
      omega
    · intro k hk
      unfold requestCount at hk
      unfold highFrames
      omega
  obtain ⟨s, hs⟩ := portConfigure_ready highFrames ⟨⟨0, 0⟩, ⟨0, 0, 0, 0, 0, 0, 0⟩, false⟩
  obtain ⟨t, hlater, hnot⟩ := not_fills_of_high_list hframes hs (by unfold highFrames; omega)
  exact ⟨s, hs, fun hreads => hnot (hreads t hlater _ _ _ _ _)⟩

end Rizzos.AhciPointers
