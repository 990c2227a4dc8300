import Rizzos.CInt
import Rizzos.Pci

set_option autoImplicit false

/-! The walks over the entries of the ACPI tables (`acpi.c`, `pci.c`). -/
namespace Rizzos.Acpi
open ByteMemory CInt

def sdtHeaderSize : ℕ := 36

def strEqLoop (m : Mem) (str1 str2 : ℕ) : ℕ → ℕ → Bool
  | 0, _ => true
  | n + 1, i =>
    if load8 m (str1 + i) ≠ load8 m (str2 + i) then false else strEqLoop m str1 str2 n (i + 1)

def strEq (m : Mem) (str1 str2 lenght : ℕ) : Bool := strEqLoop m str1 str2 lenght 0

/-- Where the pointer of entry `i` is read: the offset `i*8` is an `int`. -/
def entryAddress (sdtHeader i : ℕ) : ℕ :=
  wrap (sdtHeader + sdtHeaderSize + uint64 (int32 (i * 8)))

/-- `entries` of `ACPI_FindTable`: the subtraction and the division are made in `size_t`. -/
def entries (m : Mem) (sdtHeader : ℕ) : ℤ :=
  int32 (wrapSub (load32 m (sdtHeader + 4)) sdtHeaderSize / 8 : ℕ)

/-- The result and the addresses that entry pointers are read from, with `fuel` entries left
    from `i` on. -/
def findLoop (m : Mem) (sdtHeader signature : ℕ) : ℕ → ℕ → ℕ × List ℕ
  | 0, _ => (0, [])
  | fuel + 1, i =>
    let header := load64 m (entryAddress sdtHeader i)
    if strEq m header signature 4 then (header, [entryAddress sdtHeader i])
    else
      let (found, reads) := findLoop m sdtHeader signature fuel (i + 1)
      (found, entryAddress sdtHeader i :: reads)

def acpiFindTable (m : Mem) (sdtHeader signature : ℕ) : ℕ × List ℕ :=
  findLoop m sdtHeader signature (entries m sdtHeader).toNat 0

/-- `size` bytes at `a` lie behind the first `start` bytes of the table and before its end. -/
def InTable (table start lenght size a : ℕ) : Prop :=
  ∃ offset, start ≤ offset ∧ offset + size ≤ lenght ∧ a = wrap (table + offset)

section FindTable
variable (m : Mem) (sdtHeader signature : ℕ)

def entryCount : ℕ := (load32 m (sdtHeader + 4) - sdtHeaderSize) / 8

def entryPointer (i : ℕ) : ℕ := load64 m (wrap (sdtHeader + (sdtHeaderSize + 8 * i)))

def Matches (i : ℕ) : Prop :=
  ∀ k < 4, load8 m (entryPointer m sdtHeader i + k) = load8 m (signature + k)

instance (i : ℕ) : Decidable (Matches m sdtHeader signature i) :=
  inferInstanceAs (Decidable (∀ k < 4, _))

/-- The walk reads entries of the table only and returns the first one that matches. -/
def FindsTable : Prop :=
  (∀ a ∈ (acpiFindTable m sdtHeader signature).2,
    InTable sdtHeader sdtHeaderSize (load32 m (sdtHeader + 4)) 8 a) ∧
  ((∃ i < entryCount m sdtHeader, Matches m sdtHeader signature i ∧
      (∀ j < i, ¬ Matches m sdtHeader signature j) ∧
      (acpiFindTable m sdtHeader signature).1 = entryPointer m sdtHeader i) ∨
    (∀ i < entryCount m sdtHeader, ¬ Matches m sdtHeader signature i) ∧
      (acpiFindTable m sdtHeader signature).1 = 0)

theorem strEqLoop_iff (str1 str2 n i : ℕ) : strEqLoop m str1 str2 n i = true ↔
    ∀ k, i ≤ k → k < i + n → load8 m (str1 + k) = load8 m (str2 + k) := by
  induction n generalizing i with
  | zero =>
    simp only [strEqLoop, true_iff]
    omega
  | succ n ih =>
    rw [strEqLoop]
    by_cases h : load8 m (str1 + i) = load8 m (str2 + i)
    · rw [if_neg (not_not.2 h), ih]
      constructor
      · intro hall k hk hk'
        obtain rfl | hlt := Nat.eq_or_lt_of_le hk
        · exact h
        · exact hall k hlt (by omega)
      · exact fun hall k hk hk' => hall k (by omega) (by omega)
    · rw [if_pos h]
      simp only [Bool.false_eq_true, false_iff]
      exact fun hall => h (hall i le_rfl (by omega))

theorem strEq_iff (str1 str2 n : ℕ) : strEq m str1 str2 n = true ↔
    ∀ k < n, load8 m (str1 + k) = load8 m (str2 + k) := by
  rw [strEq, strEqLoop_iff]
  simp

/-- A negative number of entries, from a length shorter than the header, stands for none. -/
theorem entries_toNat : (entries m sdtHeader).toNat = entryCount m sdtHeader := by
  have h : load32 m (sdtHeader + 4) < 2 ^ 32 := by simpa using loadLE_lt m (sdtHeader + 4) 4
  generalize hl : load32 m (sdtHeader + 4) = lenght at h
  simp only [entries, entryCount, hl, int32, wrapSub, wrap, sdtHeaderSize]
  omega

theorem entryAddress_of_lt {i : ℕ} (h : i < 2 ^ 28) :
    entryAddress sdtHeader i = wrap (sdtHeader + (sdtHeaderSize + 8 * i)) := by
  have hoffset : uint64 (int32 (i * 8)) = 8 * i := by
    rw [int32_of_range (by omega) (by omega)]
    unfold uint64
    omega
  rw [entryAddress, hoffset, Nat.add_assoc]

theorem entryAddress_overflow (lenght : ℕ) (h : lenght < 2 ^ 32) :
    ¬ InTable sdtHeader sdtHeaderSize lenght 8 (entryAddress sdtHeader (2 ^ 28)) := by
  have hoffset : uint64 (int32 ((2 ^ 28 : ℕ) * 8)) = 2 ^ 64 - 2 ^ 31 := by decide
  rintro ⟨offset, hlo, hhi, e⟩
  rw [entryAddress, hoffset] at e
  simp only [wrap, sdtHeaderSize] at hlo e
  omega

theorem findLoop_cases (fuel i : ℕ) :
    (∃ j, i ≤ j ∧ j < i + fuel ∧
      strEq m (load64 m (entryAddress sdtHeader j)) signature 4 = true ∧
      (∀ k, i ≤ k → k < j → strEq m (load64 m (entryAddress sdtHeader k)) signature 4 = false) ∧
      findLoop m sdtHeader signature fuel i = (load64 m (entryAddress sdtHeader j),
        (List.range' i (j + 1 - i)).map (entryAddress sdtHeader))) ∨
    ((∀ k, i ≤ k → k < i + fuel →
        strEq m (load64 m (entryAddress sdtHeader k)) signature 4 = false) ∧
      findLoop m sdtHeader signature fuel i =
        (0, (List.range' i fuel).map (entryAddress sdtHeader))) := by
  induction fuel generalizing i with
  | zero => exact .inr ⟨by omega, rfl⟩
  | succ fuel ih =>
    rw [findLoop]
    dsimp only
    cases hmatch : strEq m (load64 m (entryAddress sdtHeader i)) signature 4 with
    | true =>
      refine .inl ⟨i, le_rfl, by omega, hmatch, by omega, ?_⟩
      rw [if_pos rfl, Nat.add_sub_cancel_left]
      rfl
    | false =>
      rw [if_neg (by decide)]
      obtain ⟨j, hlo, hhi, hj, hbefore, e⟩ | ⟨hnone, e⟩ := ih (i + 1) <;> rw [e]
      · refine .inl ⟨j, by omega, by omega, hj, fun k hk hkj => ?_, ?_⟩
        · obtain rfl | hlt := Nat.eq_or_lt_of_le hk
          · exact hmatch
          · exact hbefore k hlt hkj
        · rw [show j + 1 - i = (j + 1 - (i + 1)) + 1 by omega]
          rfl
      · refine .inr ⟨fun k hk hk' => ?_, rfl⟩
        obtain rfl | hlt := Nat.eq_or_lt_of_le hk
        · exact hmatch
        · exact hnone k hlt (by omega)

theorem strEq_entry_iff {i : ℕ} (h : i < 2 ^ 28) :
    strEq m (load64 m (entryAddress sdtHeader i)) signature 4 = true ↔
      Matches m sdtHeader signature i := by
  rw [strEq_iff, entryAddress_of_lt sdtHeader h]
  rfl

/-- The walk is right when it never comes to the entry whose offset overflows. -/
theorem findsTable_iff : FindsTable m sdtHeader signature ↔
    entryCount m sdtHeader ≤ 2 ^ 28 ∨ ∃ i < 2 ^ 28, Matches m sdtHeader signature i := by
  have hlenght : load32 m (sdtHeader + 4) < 2 ^ 32 := by
    simpa using loadLE_lt m (sdtHeader + 4) 4
  have hinside : ∀ i < entryCount m sdtHeader, i < 2 ^ 28 →
      InTable sdtHeader sdtHeaderSize (load32 m (sdtHeader + 4)) 8 (entryAddress sdtHeader i) := by
    intro i hi hlt
    refine ⟨sdtHeaderSize + 8 * i, by omega, ?_, entryAddress_of_lt sdtHeader hlt⟩
    unfold entryCount sdtHeaderSize at hi
    unfold sdtHeaderSize
    omega
  have hloop := findLoop_cases m sdtHeader signature (entryCount m sdtHeader) 0
  rw [← entries_toNat] at hloop
  change (∃ j, _ ∧ _ ∧ _ ∧ _ ∧ acpiFindTable m sdtHeader signature = _) ∨
    (_ ∧ acpiFindTable m sdtHeader signature = _) at hloop
  rw [entries_toNat] at hloop
  unfold FindsTable
  constructor
  · rintro ⟨hreads, _⟩
    by_contra hnot
    push Not at hnot
    obtain ⟨hmany, hnone⟩ := hnot
    have hread : entryAddress sdtHeader (2 ^ 28) ∈ (acpiFindTable m sdtHeader signature).2 := by
      obtain ⟨j, _, hj, hmatch, _, e⟩ | ⟨_, e⟩ := hloop
      · have hge : 2 ^ 28 ≤ j := by
          by_contra hlt
          exact hnone j (by omega) ((strEq_entry_iff m sdtHeader signature (by omega)).1 hmatch)
        rw [e]
        exact List.mem_map_of_mem (List.mem_range'_1.2 ⟨by omega, by omega⟩)
      · rw [e]
        exact List.mem_map_of_mem (List.mem_range'_1.2 ⟨by omega, by omega⟩)
    exact entryAddress_overflow sdtHeader _ hlenght (hreads _ hread)
  · intro h
    obtain ⟨j, _, hj, hmatch, hbefore, e⟩ | ⟨hnone, e⟩ := hloop
    · have hlt : j < 2 ^ 28 := by
        obtain hfew | ⟨i, hi, hmi⟩ := h
        · omega
        · by_contra hge
          have := hbefore i (by omega) (by omega)
          rw [(strEq_entry_iff m sdtHeader signature hi).2 hmi] at this
          cases this
      rw [e]
      refine ⟨fun a ha => ?_, .inl ⟨j, by omega, ?_, fun k hk hmk => ?_, ?_⟩⟩
      · obtain ⟨k, hk, rfl⟩ := List.mem_map.1 ha
        have := List.mem_range'_1.1 hk
        exact hinside k (by omega) (by omega)
      · exact (strEq_entry_iff m sdtHeader signature hlt).1 hmatch
      · have := hbefore k (by omega) hk
        rw [(strEq_entry_iff m sdtHeader signature (by omega)).2 hmk] at this
        cases this
      · rw [entryAddress_of_lt sdtHeader hlt]
        rfl
    · have hfew : entryCount m sdtHeader ≤ 2 ^ 28 := by
        obtain hfew | ⟨i, hi, hmi⟩ := h
        · exact hfew
        · by_contra hmany
          have := hnone i (by omega) (by omega)
          rw [(strEq_entry_iff m sdtHeader signature hi).2 hmi] at this
          cases this
      rw [e]
      refine ⟨fun a ha => ?_, .inr ⟨fun i hi hmi => ?_, rfl⟩⟩
      · obtain ⟨k, hk, rfl⟩ := List.mem_map.1 ha
        have := List.mem_range'_1.1 hk
        exact hinside k (by omega) (by omega)
      · have := hnone i (by omega) (by omega)
        rw [(strEq_entry_iff m sdtHeader signature (by omega)).2 hmi] at this
        cases this

end FindTable

section EnumeratePci
variable (m : Mem) (mcfg : ℕ)
open Pci

def recordAddresses : List ℕ :=
  (List.range (enteries m mcfg).toNat).map fun i =>
    wrap (mcfg + mcfgHeaderSize + deviceConfigSize * i)

def enumerateRecord (a : ℕ) : List PciEvent :=
  let devConfig := readDeviceConfig m a
  (List.range' devConfig.startBus (devConfig.endBus - devConfig.startBus)).flatMap
    (enumerateBus m devConfig.baseAddress)

theorem pciEnumeratePci_eq :
    pciEnumeratePci m mcfg = (recordAddresses m mcfg).flatMap (enumerateRecord m) := by
  rw [recordAddresses, List.flatMap_map]
  rfl

/-- The enumeration reads records of the table only, and each complete one once. -/
def EnumeratesRecords : Prop :=
  pciEnumeratePci m mcfg = (recordAddresses m mcfg).flatMap (enumerateRecord m) ∧
  (∀ a ∈ recordAddresses m mcfg,
    InTable mcfg mcfgHeaderSize (load32 m (mcfg + 4)) deviceConfigSize a) ∧
  recordAddresses m mcfg = (List.range (recordCount m mcfg)).map fun i =>
    wrap (mcfg + (mcfgHeaderSize + deviceConfigSize * i))

theorem enumeratesRecords : EnumeratesRecords m mcfg := by
  have haddresses : recordAddresses m mcfg = (List.range (recordCount m mcfg)).map fun i =>
      wrap (mcfg + (mcfgHeaderSize + deviceConfigSize * i)) := by
    unfold recordAddresses
    rw [enteries_toNat]
    refine List.map_congr_left fun i _ => ?_
    rw [Nat.add_assoc]
  refine ⟨pciEnumeratePci_eq m mcfg, fun a ha => ?_, haddresses⟩
  rw [haddresses] at ha
  obtain ⟨i, hi, rfl⟩ := List.mem_map.1 ha
  have hi := List.mem_range.1 hi
  refine ⟨_, by omega, ?_, rfl⟩
  unfold recordCount deviceConfigSize at hi
  unfold deviceConfigSize
  omega

end EnumeratePci

/-- The table walks stay inside their tables exactly when the search of the first one never
    comes to entry `2 ^ 28`. -/
theorem tableWalks_iff (m : Mem) (sdtHeader signature mcfg : ℕ) :
    FindsTable m sdtHeader signature ∧ EnumeratesRecords m mcfg ↔
      entryCount m sdtHeader ≤ 2 ^ 28 ∨ ∃ i < 2 ^ 28, Matches m sdtHeader signature i := by
  rw [and_iff_left (enumeratesRecords m mcfg)]
  exact findsTable_iff m sdtHeader signature

def longTable : Mem := fun a =>
  if a = 0x1004 then 0x30#8 else if a = 0x1007 then 0x80#8 else if a = 0x10 then 0x4d#8 else 0#8

theorem not_findsTable_longTable : ¬ FindsTable longTable 0x1000 0x10 := by
  have hcount : entryCount longTable 0x1000 = 2 ^ 28 + 1 := by decide +kernel
  rw [findsTable_iff, hcount]
  rintro (hfew | ⟨i, hi, hmatch⟩)
  · omega
  · have hpointer : entryPointer longTable 0x1000 i = 0 := by
      apply loadLE_zero
      intro k hk
      unfold longTable sdtHeaderSize
      rw [wrap_wrap_add, wrap_of_lt (by omega), if_neg (by omega), if_neg (by omega),
        if_neg (by omega)]
    have hfirst := hmatch 0 (by decide)
    rw [hpointer] at hfirst
    exact absurd hfirst (by decide)

end Rizzos.Acpi
