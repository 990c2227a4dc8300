import Rizzos.AhciConfigure

set_option autoImplicit false

/-! Who owns the command tables that `AHCI_Port_Configure` sets up. Table `i` starts `256 * i`
bytes behind the frame that was requested for it. -/
namespace Rizzos.AhciTables
open ByteMemory Memory Ahci AhciConfigure

def RangesApart (a n b k : ℕ) : Prop := a + n ≤ b ∨ b + k ≤ a

def commandListSize : ℕ := 32 * HBACommandHeader.size
def fisAreaSize : ℕ := 256
def tableSize : ℕ := 256

def tableAddress (s : PortState ℕ) (i : ℕ) : ℕ :=
  load64 s.mem (s.hbaPort.commandList + HBACommandHeader.size * i +
    HBACommandHeader.commandTableBaseAddress)

structure CommandMemoryOwned (frames : ℕ → ℕ) (s : PortState ℕ) : Prop where
  owned : ∀ i < 32, ∃ k < requestCount, frames k ≤ tableAddress s i ∧
    tableAddress s i + tableSize ≤ frames k + frameSize
  zero : ∀ i < 32, ∀ b < tableSize, s.mem (tableAddress s i + b) = 0#8
  tables : ∀ i < 32, ∀ j < 32, i ≠ j →
    RangesApart (tableAddress s i) tableSize (tableAddress s j) tableSize
  list : ∀ i < 32,
    RangesApart (tableAddress s i) tableSize s.hbaPort.commandList commandListSize
  fis : ∀ i < 32, RangesApart (tableAddress s i) tableSize s.hbaPort.fisBase fisAreaSize
  bases : RangesApart s.hbaPort.commandList commandListSize s.hbaPort.fisBase fisAreaSize

/-- From table 16 on a table lies in the page behind its frame, so that page has to be another
    frame of the call, where nothing else of the port is in its place. The tables behind the
    cleared 256 bytes have to be clear already. -/
structure TablesPlaced (frames : ℕ → ℕ) (m : Mem) : Prop where
  next : ∀ i < 32, 16 ≤ i → ∃ k < requestCount, frames k = tableFrame frames i + frameSize ∧
    (k = 0 → 20 ≤ i) ∧ (k = 1 → 17 ≤ i) ∧ k + 14 ≠ i
  clear : ∀ i < 32, i ≠ 0 → i ≠ 16 → ∀ b < tableSize,
    m (tableFrame frames i + tableSize * i + b) = 0#8

def Distinct (frames : ℕ → ℕ) : Prop :=
  ∀ j < requestCount, ∀ k < requestCount, j ≠ k → frames j ≠ frames k

section Placement
variable {frames : ℕ → ℕ} {m : Mem}

theorem configuredMem_table (hframes : FrameSequence frames) (hdistinct : Distinct frames)
    {i k b : ℕ} (hk : k < requestCount)
    (hpage : frames k = tableFrame frames i + 4096 * (i / 16))
    (hoffset : 256 ≤ 256 * (i % 16)) (hlist : k = 0 → 1024 ≤ 256 * (i % 16)) (hb : b < 256) :
    configuredMem frames m (tableFrame frames i + 256 * i + b) =
      m (tableFrame frames i + 256 * i + b) := by
  unfold requestCount at hk
  have haligned := hframes.aligned k hk
  have hapart : ∀ l < requestCount, l ≠ k → frames l % 4096 = 0 ∧ frames l ≠ frames k :=
    fun l hl hne => ⟨hframes.aligned l hl, hdistinct l hl k hk hne⟩
  apply headersMem_untouched hframes le_rfl
  · by_cases h : 0 = k
    · subst h
      omega
    · have := hapart 0 (by decide) h
      omega
  · by_cases h : 1 = k
    · subst h
      omega
    · have := hapart 1 (by decide) h
      omega
  · intro j hj
    by_cases h : j + 2 = k
    · have : tableFrame frames j = frames k := congrArg frames h
      omega
    · have := hapart (j + 2) (by unfold requestCount; omega) h
      unfold tableFrame at *
      omega

theorem configuredMem_header (hframes : FrameSequence frames) (hdistinct : Distinct frames)
    {i : ℕ} (hi : i < 32) : load64 (configuredMem frames m) (frames 0 + 32 * i + 8) =
      tableFrame frames i + 256 * i := by
  apply (headersMem_header hframes le_rfl hi _).2
  intro j hj
  exact hdistinct _ (by unfold requestCount; omega) _ (by decide) (by omega)

end Placement

section Owned
variable {frames : ℕ → ℕ} {hba : Controller} {fuel : ℕ} {m : Mem} {port : HBAPort} {issued : Bool}
  {s : PortState ℕ}

/-- Each table lies in one frame, and where that frame has another use it is out of its way. -/
theorem TablesPlaced.page (hplaced : TablesPlaced frames m) {i : ℕ}
    (hi : i < 32) : ∃ k < requestCount, frames k = tableFrame frames i + 4096 * (i / 16) ∧
      (i < 16 → k = i + 2) ∧
      (16 ≤ i → (k = 0 → 20 ≤ i) ∧ (k = 1 → 17 ≤ i) ∧ k + 14 ≠ i) := by
  by_cases hlow : i < 16
  · refine ⟨i + 2, by unfold requestCount; omega, ?_, fun _ => rfl, by omega⟩
    rw [Nat.div_eq_of_lt hlow]
    rfl
  · obtain ⟨k, hk, heq, hrest⟩ := hplaced.next i hi (by omega)
    refine ⟨k, hk, ?_, by omega, fun _ => hrest⟩
    rw [heq, frameSize]
    omega

/-- The memory and the registers of a call that returned, with the frames it was given. -/
structure Configured (frames : ℕ → ℕ) (m : Mem) (s : PortState ℕ) : Prop where
  sequence : FrameSequence frames
  distinct : Distinct frames
  mem : s.mem = configuredMem frames m
  list : s.hbaPort.commandList = frames 0
  fis : s.hbaPort.fisBase = frames 1

theorem Configured.tableAddress (h : Configured frames m s) {i : ℕ} (hi : i < 32) :
    tableAddress s i = tableFrame frames i + 256 * i := by
  rw [AhciTables.tableAddress, h.mem, h.list, HBACommandHeader.size,
    HBACommandHeader.commandTableBaseAddress]
  exact configuredMem_header h.sequence h.distinct hi

theorem Configured.tableFrame_aligned (h : Configured frames m s) {i : ℕ} (hi : i < 32) :
    tableFrame frames i % 4096 = 0 :=
  h.sequence.aligned _ (by unfold requestCount; omega)

theorem Configured.page_unique (h : Configured frames m s) {k l : ℕ} (hk : k < requestCount)
    (hl : l < requestCount) (heq : frames k = frames l) : k = l := by
  by_contra hne
  exact h.distinct k hk l hl hne heq

theorem Configured.clear (h : Configured frames m s) (hplaced : TablesPlaced frames m) {i b : ℕ}
    (hi : i < 32) (hb : b < 256) : configuredMem frames m (tableFrame frames i + 256 * i + b) = 0#8 := by
  obtain ⟨k, hk, hpage, hlow, hhigh⟩ := hplaced.page hi
  by_cases hfirst : i = 0
  · have hne : tableFrame frames i ≠ frames 0 :=
      h.distinct (i + 2) (by unfold requestCount; omega) 0 (by decide) (by omega)
    rw [hfirst]
    rw [hfirst] at hne
    exact headersMem_cleared h.sequence le_rfl (by decide) hne hb
  · by_cases hmiddle : i = 16
    · obtain ⟨j, rfl⟩ : ∃ j, k = j + 2 := ⟨k - 2, by omega⟩
      have hj : j < 32 := by
        unfold requestCount at hk
        omega
      have hne : tableFrame frames j ≠ frames 0 :=
        h.distinct (j + 2) hk 0 (by decide) (by omega)
      have hclear : configuredMem frames m (tableFrame frames j + b) = 0#8 :=
        headersMem_cleared h.sequence le_rfl hj hne hb
      have hstart : tableFrame frames j = tableFrame frames i + 256 * i := by
        rw [tableFrame, hpage, hmiddle]
      rwa [← hstart]
    · rw [configuredMem_table h.sequence h.distinct hk hpage (by omega) (by omega) hb]
      exact hplaced.clear i hi hfirst hmiddle b hb

theorem Configured.owned (h : Configured frames m s) (hplaced : TablesPlaced frames m) :
    CommandMemoryOwned frames s := by
  have hzero := h.sequence.aligned 0 (by decide)
  have hone := h.sequence.aligned 1 (by decide)
  have hbases := h.distinct 0 (by decide) 1 (by decide) (by decide)
  refine ⟨fun i hi => ?_, fun i hi b hb => ?_, fun i hi j hj hne => ?_, fun i hi => ?_,
    fun i hi => ?_, ?_⟩
  · obtain ⟨k, hk, hpage, -⟩ := hplaced.page hi
    refine ⟨k, hk, ?_⟩
    rw [h.tableAddress hi, tableSize, frameSize]
    omega
  · rw [h.tableAddress hi, h.mem]
    exact h.clear hplaced hi hb
  · obtain ⟨k, hk, hpage, hlow, hhigh⟩ := hplaced.page hi
    obtain ⟨l, hl, hpage', hlow', hhigh'⟩ := hplaced.page hj
    have hk' := h.sequence.aligned k hk
    have hl' := h.sequence.aligned l hl
    rw [h.tableAddress hi, h.tableAddress hj, RangesApart, tableSize]
    by_cases hkl : k = l
    · -- two tables in one page: one of the low half and one of the high half
      have hhalf : i / 16 ≠ j / 16 := by
        intro heq
        have := h.page_unique (k := i + 2) (l := j + 2) (by unfold requestCount; omega)
          (by unfold requestCount; omega) (by rw [hkl] at hpage; unfold tableFrame at *; omega)
        omega
      rw [hkl] at hpage hlow hhigh
      omega
    · have := h.distinct k hk l hl hkl
      omega
  · obtain ⟨k, hk, hpage, hlow, hhigh⟩ := hplaced.page hi
    have hk' := h.sequence.aligned k hk
    rw [h.tableAddress hi, h.list, RangesApart, tableSize, commandListSize, HBACommandHeader.size]
    by_cases hk0 : k = 0
    · rw [hk0] at hpage
      omega
    · have := h.distinct k hk 0 (by decide) hk0
      omega
  · obtain ⟨k, hk, hpage, hlow, hhigh⟩ := hplaced.page hi
    have hk' := h.sequence.aligned k hk
    rw [h.tableAddress hi, h.fis, RangesApart, tableSize, fisAreaSize]
    by_cases hk1 : k = 1
    · rw [hk1] at hpage
      omega
    · have := h.distinct k hk 1 (by decide) hk1
      omega
  · rw [h.list, h.fis, RangesApart, commandListSize, fisAreaSize, HBACommandHeader.size]
    omega

theorem Configured.page_of_owned (h : Configured frames m s) (howned : CommandMemoryOwned frames s)
    {i : ℕ} (hi : i < 32) : ∃ k < requestCount,
      frames k = tableFrame frames i + 4096 * (i / 16) := by
  obtain ⟨k, hk, hlo, hhi⟩ := howned.owned i hi
  have hk' := h.sequence.aligned k hk
  have hi' := h.tableFrame_aligned hi
  rw [h.tableAddress hi, tableSize, frameSize] at *
  exact ⟨k, hk, by omega⟩

theorem Configured.placed (h : Configured frames m s) (howned : CommandMemoryOwned frames s) :
    TablesPlaced frames m := by
  refine ⟨fun i hi hhigh => ?_, fun i hi hne hne' b hb => ?_⟩
  · obtain ⟨k, hk, hpage⟩ := h.page_of_owned howned hi
    refine ⟨k, hk, by rw [hpage, frameSize]; omega, ?_, ?_, ?_⟩
    · rintro rfl
      have hlist := howned.list i hi
      rw [h.tableAddress hi, h.list, RangesApart, tableSize, commandListSize,
        HBACommandHeader.size] at hlist
      omega
    · rintro rfl
      have hfis := howned.fis i hi
      rw [h.tableAddress hi, h.fis, RangesApart, tableSize, fisAreaSize] at hfis
      omega
    · intro hsame
      have htables := howned.tables i hi (i - 16) (by omega) (by omega)
      have hframe : tableFrame frames (i - 16) = frames k := by
        rw [tableFrame]
        congr 1
        omega
      rw [h.tableAddress hi, h.tableAddress (by omega), RangesApart, tableSize] at htables
      omega
  · obtain ⟨k, hk, hpage⟩ := h.page_of_owned howned hi
    have hclear := howned.zero i hi b hb
    have hlist := howned.list i hi
    rw [h.tableAddress hi, h.list, RangesApart, tableSize, commandListSize,
      HBACommandHeader.size] at hlist
    rw [h.tableAddress hi, h.mem, configuredMem_table h.sequence h.distinct hk hpage (by omega)
      (by rintro rfl; omega) hb] at hclear
    exact hclear

/-- The tables are owned, clear and disjoint exactly when the frames and the memory that the
    call happens to get put them in place. -/
theorem commandMemoryOwned_iff (hframes : FrameSequence frames) (hdistinct : Distinct frames)
    (h : portConfigure (nextFrame frames) hba fuel ⟨⟨m, 0⟩, port, issued⟩ = some s) :
    CommandMemoryOwned frames s ↔ TablesPlaced frames m := by
  obtain ⟨hmem, -, hlist, hfis⟩ := portConfigure_cases hframes h
  have hconfigured : Configured frames m s := ⟨hframes, hdistinct, hmem, hlist, hfis⟩
  exact ⟨hconfigured.placed, hconfigured.owned⟩

end Owned

theorem consecutiveFrames_distinct : Distinct consecutiveFrames := by
  intro j _ k _ hne heq
  unfold consecutiveFrames at heq
  omega

def descendingFrames (k : ℕ) : ℕ := consecutiveFrames (33 - k)

theorem descendingFrames_placed : TablesPlaced descendingFrames 0 where
  next i hi hle := by
    refine ⟨i + 1, by unfold requestCount; omega, ?_, by omega, by omega, by omega⟩
    unfold tableFrame descendingFrames consecutiveFrames frameSize
    omega
  clear _ _ _ _ _ _ := rfl

/-- Where each frame lies behind the next one, the tables do too. -/
theorem commandMemoryOwned_descending :
    ∃ s, portConfigure (nextFrame descendingFrames) readyController 1
        ⟨⟨0, 0⟩, ⟨0, 0, 0, 0, 0, 0, 0⟩, false⟩ = some s ∧ CommandMemoryOwned descendingFrames s := by
  obtain ⟨s, hs⟩ := portConfigure_ready descendingFrames ⟨⟨0, 0⟩, ⟨0, 0, 0, 0, 0, 0, 0⟩, false⟩
  have hsequence : FrameSequence descendingFrames :=
    ⟨fun k _ => consecutiveFrames_sequence.aligned (33 - k) (by unfold requestCount; omega),
      fun k _ => consecutiveFrames_sequence.bound (33 - k) (by unfold requestCount; omega)⟩
  have hdistinct : Distinct descendingFrames := fun j hj k hk hne =>
    consecutiveFrames_distinct (33 - j) (by unfold requestCount; omega) (33 - k)
      (by unfold requestCount; omega) (by unfold requestCount at hj hk; omega)
  exact ⟨s, hs, (commandMemoryOwned_iff hsequence hdistinct hs).2 descendingFrames_placed⟩

/-- Table 31 lies behind the last of the frames. -/
theorem not_commandMemoryOwned_consecutive :
    ∃ s, portConfigure (nextFrame consecutiveFrames) readyController 1
        ⟨⟨0, 0⟩, ⟨0, 0, 0, 0, 0, 0, 0⟩, false⟩ = some s ∧
      ¬ CommandMemoryOwned consecutiveFrames s := by
  obtain ⟨s, hs⟩ := portConfigure_ready consecutiveFrames ⟨⟨0, 0⟩, ⟨0, 0, 0, 0, 0, 0, 0⟩, false⟩
  obtain ⟨hmem, -, hlist, hfis⟩ := portConfigure_cases consecutiveFrames_sequence hs
  have hconfigured : Configured consecutiveFrames 0 s :=
    ⟨consecutiveFrames_sequence, consecutiveFrames_distinct, hmem, hlist, hfis⟩
  refine ⟨s, hs, fun howned => ?_⟩
  obtain ⟨k, hk, heq, -⟩ := (hconfigured.placed howned).next 31 (by decide) (by decide)
  simp only [consecutiveFrames, tableFrame, frameSize, requestCount] at heq hk
  omega

end Rizzos.AhciTables
