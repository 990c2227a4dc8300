import Mathlib.Data.BitVec
import Rizzos.ByteMemory

set_option autoImplicit false

/-! The search of `efi_main` for the root pointer of the ACPI tables. -/
namespace Rizzos.ConfigurationTable
open ByteMemory

/-- An `EFI_GUID`, as the four words that `CompareGuid` looks at. -/
structure Guid where
  word0 : BitVec 32
  word1 : BitVec 32
  word2 : BitVec 32
  word3 : BitVec 32
deriving DecidableEq

/-- `{ 0x8868e871, 0xe4f1, 0x11d3, {0xbc, 0x22, 0x0, 0x80, 0xc7, 0x3c, 0x88, 0x81} }`. -/
def acpi20TableGuid : Guid := ⟨0x8868e871, 0x11d3e4f1, 0x800022bc, 0x81883cc7⟩

/-- The library's comparison: zero when the two are equal. -/
def compareGuid (a b : Guid) : BitVec 32 :=
  (a.word0 - b.word0) ||| (a.word1 - b.word1) ||| (a.word2 - b.word2) ||| (a.word3 - b.word3)

theorem compareGuid_eq_zero_iff (a b : Guid) : compareGuid a b = 0#32 ↔ a = b := by
  have hword : ∀ x y : BitVec 32, x - y = 0#32 ↔ x = y := fun _ _ => sub_eq_zero
  rw [compareGuid, BitVec.or_eq_zero_iff, BitVec.or_eq_zero_iff, BitVec.or_eq_zero_iff, hword,
    hword, hword, hword, Guid.mk.injEq, and_assoc, and_assoc]

def strcmpLoop (a b : ℕ → Byte) : ℕ → ℕ → ℕ
  | 0, _ => 1
  | n + 1, i => if a i ≠ b i then 0 else strcmpLoop a b n (i + 1)

/-- One when the bytes are equal, unlike the comparison of the C library. -/
def strcmp (a b : ℕ → Byte) (length : ℕ) : ℕ := strcmpLoop a b length 0

theorem strcmpLoop_ne_zero_iff (a b : ℕ → Byte) (n i : ℕ) :
    strcmpLoop a b n i ≠ 0 ↔ ∀ j < n, a (i + j) = b (i + j) := by
  induction n generalizing i with
  | zero => simp [strcmpLoop]
  | succ n ih =>
    rw [strcmpLoop]
    split
    · rename_i hne
      exact ⟨fun h => absurd rfl h, fun h => absurd (h 0 (by omega)) hne⟩
    · rename_i heq
      rw [ih]
      constructor
      · intro h j hj
        cases j with
        | zero => exact not_not.1 heq
        | succ j =>
          have := h j (by omega)
          rwa [show i + 1 + j = i + (j + 1) by omega] at this
      · intro h j hj
        have := h (j + 1) (by omega)
        rwa [show i + (j + 1) = i + 1 + j by omega] at this

structure ConfigTable where
  vendorGuid : Guid
  vendorTable : ℕ

def rsdPtr (i : ℕ) : Byte :=
  [0x52#8, 0x53#8, 0x44#8, 0x20#8, 0x50#8, 0x54#8, 0x52#8, 0x20#8].getD i 0

/-- The moving pointer, as the number of entries it has passed, the result, and a history of
    the entries read. -/
structure Search where
  configTable : ℕ
  rsdp : ℕ
  read : List ℕ

section Loop
variable (m : Mem) (entry : ℕ → ConfigTable)

def checkTable (s : Search) : Search :=
  let table := (entry s.configTable).vendorTable
  { s with
    rsdp := if strcmp rsdPtr (fun i => load8 m (table + i)) 8 ≠ 0 then table else s.rsdp
    read := s.configTable :: s.read }

def searchTurn (s : Search) (index : ℕ) : Search :=
  let i := s.configTable + index
  let s := { s with read := i :: s.read }
  let s := if compareGuid (entry i).vendorGuid acpi20TableGuid ≠ 0 then checkTable m entry s else s
  { s with configTable := s.configTable + 1 }

/-- The loop over `n` entries. What stands behind them in memory are entries as well. -/
def findRsdp (n : ℕ) : Search := (List.range n).foldl (searchTurn m entry) ⟨0, 0, []⟩

def BeginsRsdPtr (table : ℕ) : Prop := ∀ i < 8, rsdPtr i = load8 m (table + i)

instance (table : ℕ) : Decidable (BeginsRsdPtr m table) :=
  inferInstanceAs (Decidable (∀ i < 8, _))

def IsRsdp (e : ConfigTable) : Prop :=
  e.vendorGuid = acpi20TableGuid ∧ BeginsRsdPtr m e.vendorTable

/-- The search reads the table only, and finds an entry if there is one. -/
def FindsRsdp (n : ℕ) : Prop :=
  (∀ i ∈ (findRsdp m entry n).read, i < n) ∧
  ((∃ i < n, IsRsdp m (entry i)) →
    ∃ i < n, IsRsdp m (entry i) ∧ (findRsdp m entry n).rsdp = (entry i).vendorTable) ∧
  ((findRsdp m entry n).rsdp = 0 ↔ ¬ ∃ i < n, IsRsdp m (entry i))

variable {m entry}

theorem strcmp_rsdPtr (table : ℕ) :
    strcmp rsdPtr (fun i => load8 m (table + i)) 8 ≠ 0 ↔ BeginsRsdPtr m table := by
  rw [strcmp, strcmpLoop_ne_zero_iff]
  simp only [Nat.zero_add]
  rfl

theorem findRsdp_succ (n : ℕ) :
    findRsdp m entry (n + 1) = searchTurn m entry (findRsdp m entry n) n := by
  rw [findRsdp, List.range_succ, List.foldl_append]
  rfl

theorem searchTurn_configTable (s : Search) (index : ℕ) :
    (searchTurn m entry s index).configTable = s.configTable + 1 := by
  unfold searchTurn
  dsimp only
  split <;> rfl

theorem findRsdp_configTable (n : ℕ) : (findRsdp m entry n).configTable = n := by
  induction n with
  | zero => rfl
  | succ n ih => rw [findRsdp_succ, searchTurn_configTable, ih]

theorem searchTurn_read (s : Search) (index : ℕ) :
    s.configTable + index ∈ (searchTurn m entry s index).read := by
  unfold searchTurn
  dsimp only
  split
  · exact List.mem_cons_of_mem _ List.mem_cons_self
  · exact List.mem_cons_self

/-- The index is added to a pointer that has moved as far. -/
theorem findRsdp_read_last (n : ℕ) : n + n ∈ (findRsdp m entry (n + 1)).read := by
  rw [findRsdp_succ]
  have hread : (findRsdp m entry n).configTable + n ∈
      (searchTurn m entry (findRsdp m entry n) n).read := searchTurn_read _ _
  rwa [findRsdp_configTable] at hread

theorem reads_inside_iff (n : ℕ) : (∀ i ∈ (findRsdp m entry n).read, i < n) ↔ n ≤ 1 := by
  constructor
  · intro h
    cases n with
    | zero => exact Nat.zero_le 1
    | succ n =>
      have := h _ (findRsdp_read_last n)
      omega
  · intro hle i hi
    have hcases : n = 0 ∨ n = 1 := by omega
    rcases hcases with rfl | rfl
    · exact absurd hi List.not_mem_nil
    · change i ∈ (searchTurn m entry ⟨0, 0, []⟩ 0).read at hi
      unfold searchTurn at hi
      dsimp only at hi
      split at hi
      · have hzero : i = 0 := by simpa [checkTable] using hi
        omega
      · have hzero : i = 0 := by simpa using hi
        omega

theorem findRsdp_one : (findRsdp m entry 1).rsdp =
    if (entry 0).vendorGuid ≠ acpi20TableGuid ∧ BeginsRsdPtr m (entry 0).vendorTable
    then (entry 0).vendorTable else 0 := by
  change (searchTurn m entry ⟨0, 0, []⟩ 0).rsdp = _
  by_cases hguid : (entry 0).vendorGuid = acpi20TableGuid
  · have hcompare : ¬ compareGuid (entry 0).vendorGuid acpi20TableGuid ≠ 0 :=
      not_not.2 ((compareGuid_eq_zero_iff _ _).2 hguid)
    rw [searchTurn, if_neg hcompare, if_neg (fun h => h.1 hguid)]
  · have hcompare : compareGuid (entry 0).vendorGuid acpi20TableGuid ≠ 0 :=
      (compareGuid_eq_zero_iff _ _).not.2 hguid
    rw [searchTurn, if_pos hcompare]
    exact if_congr ((strcmp_rsdPtr _).trans (and_iff_right hguid).symm) rfl rfl

/-- The search is right for an empty table, and for a single entry that is not a root pointer
    and is not taken for one. -/
theorem findsRsdp_iff (m : Mem) (entry : ℕ → ConfigTable) (n : ℕ) : FindsRsdp m entry n ↔
    n = 0 ∨ n = 1 ∧ ¬ (BeginsRsdPtr m (entry 0).vendorTable ∧
      ((entry 0).vendorGuid = acpi20TableGuid ∨ (entry 0).vendorTable ≠ 0)) := by
  rw [FindsRsdp, reads_inside_iff]
  rcases Nat.lt_or_ge 1 n with hlarge | hsmall
  · constructor
    · exact fun h => absurd h.1 (by omega)
    · exact fun h => absurd h (by omega)
  · have hcases : n = 0 ∨ n = 1 := by omega
    rcases hcases with rfl | rfl
    · simp [findRsdp]
    · have hentry : (∃ i < 1, IsRsdp m (entry i)) ↔ IsRsdp m (entry 0) := by simp
      rw [hentry, findRsdp_one]
      unfold IsRsdp
      by_cases hguid : (entry 0).vendorGuid = acpi20TableGuid <;>
        by_cases hbegins : BeginsRsdPtr m (entry 0).vendorTable <;> simp [hguid, hbegins]

end Loop

def signedTable : Mem := fun a => if a < 0x1000 then 0#8 else rsdPtr (a - 0x1000)

/-- The only entry is the root pointer, and the result is null. -/
theorem not_findsRsdp_single : ¬ FindsRsdp signedTable (fun _ => ⟨acpi20TableGuid, 0x1000⟩) 1 := by
  rintro ⟨-, -, hnull⟩
  have hsearch : (findRsdp signedTable (fun _ => ⟨acpi20TableGuid, 0x1000⟩) 1).rsdp = 0 := by decide
  have hsigned : BeginsRsdPtr signedTable 0x1000 := by decide
  exact hnull.1 hsearch ⟨0, Nat.one_pos, rfl, hsigned⟩

end Rizzos.ConfigurationTable
