import Rizzos.Memory
import Rizzos.Paging
import Rizzos.TableTree

set_option autoImplicit false

/-! `PTM_MapMemory` of `paging/page_table_manager.c` and the walk that the processor makes
through the tables it builds. -/
namespace Rizzos.PageTableManager
open ByteMemory Memory Paging TableTree

def readEntry (m : Mem) (table index : ℕ) : PageDirEntry :=
  BitVec.ofNat 64 (load64 m (table + 8 * index))

def writeEntry (m : Mem) (table index : ℕ) (pde : PageDirEntry) : Mem :=
  store64 m (table + 8 * index) pde.toNat

def linkEntry (pde : PageDirEntry) (address : ℕ) : PageDirEntry :=
  pdeSetFlag (pdeSetFlag (pdeSetAddress pde (BitVec.ofNat 64 (address / 4096))) .present true)
    .readWrite true

section Map
variable {α : Type} (pfaRequestPage : Machine α → ℕ × Machine α)

/-- One level of `PTM_MapMemory`: the table behind the entry whose index is held at `field`,
    which is requested, cleared and linked when the entry is not present. -/
def nextTable (table field : ℕ) (s : Machine α) : ℕ × Machine α :=
  let pde := readEntry s.mem table (load64 s.mem field)
  if pdeGetFlag pde .present = false then
    let (next, s) := pfaRequestPage s
    let m := memSet64 s.mem next 0 frameSize
    (next, ⟨writeEntry m table (load64 m field) (linkEntry pde next), s.alloc⟩)
  else (pdeFrame pde, s)

/-- `pml4` is the static that `PTM_Create` sets. -/
def ptmMapMemory (pml4 virtualMemory physicalMemory : ℕ) (s : Machine α) : Machine α :=
  let (indexer, m) := pmiCreate virtualMemory s.mem
  let (pdp, s) := nextTable pfaRequestPage pml4 (indexer + pdpField) ⟨m, s.alloc⟩
  let (pd, s) := nextTable pfaRequestPage pdp (indexer + pdField) s
  let (pt, s) := nextTable pfaRequestPage pd (indexer + ptField) s
  let pde := readEntry s.mem pt (load64 s.mem (indexer + pField))
  ⟨writeEntry s.mem pt (load64 s.mem (indexer + pField)) (linkEntry pde physicalMemory), s.alloc⟩

end Map

structure Translation where
  frame : ℕ
  entries : List PageDirEntry

def entryFrame (pde : PageDirEntry) : ℕ := pde.toNat / 2 ^ 12 % 2 ^ 40 * 2 ^ 12

/-- The processor's walk from `table`: it stops at an entry whose present bit is clear, and
    above the last level at one whose bit 7 maps a large page. -/
def walk (m : Mem) : ℕ → List ℕ → List PageDirEntry → Option Translation
  | table, [], read => some ⟨table, read⟩
  | table, index :: rest, read =>
    let pde := readEntry m table index
    if pde.getLsbD 0 = false then none
    else if rest ≠ [] ∧ pde.getLsbD 7 = true then some ⟨entryFrame pde, pde :: read⟩
    else walk m (entryFrame pde) rest (pde :: read)

def translate (m : Mem) (pml4 virtualAddress : ℕ) : Option Translation :=
  walk m pml4 [tableIndex 3 virtualAddress, tableIndex 2 virtualAddress,
    tableIndex 1 virtualAddress, tableIndex 0 virtualAddress] []

def entries (m : Mem) (table index : ℕ) : Option ℕ :=
  if index < 512 ∧ pdeGetFlag (readEntry m table index) .present = true then
    some (pdeFrame (readEntry m table index))
  else none

def path (virtualAddress : ℕ) : List ℕ :=
  [tableIndex 0 virtualAddress, tableIndex 1 virtualAddress, tableIndex 2 virtualAddress,
    tableIndex 3 virtualAddress]

def FrameAddress (t : ℕ) : Prop := t % 4096 = 0 ∧ 0 < t ∧ t < 2 ^ 52

def InFrame (t x : ℕ) : Prop := t ≤ x ∧ x < t + 4096

theorem FrameAddress.disjoint {t u : ℕ} (ht : FrameAddress t) (hu : FrameAddress u)
    (h : t ≠ u) : t + 4096 ≤ u ∨ u + 4096 ≤ t := by
  obtain ⟨ht, _⟩ := ht
  obtain ⟨hu, _⟩ := hu
  omega

def frameOf (address : ℕ) : ℕ := address / 4096 % 2 ^ 40 * 4096

theorem FrameAddress.frameOf {t : ℕ} (h : FrameAddress t) : frameOf t = t := by
  obtain ⟨ht, _⟩ := h
  unfold PageTableManager.frameOf
  omega

theorem pdeFrame_eq (pde : PageDirEntry) : pdeFrame pde = entryFrame pde := by
  have haddress : (pdeGetAddress pde).toNat = pde.toNat / 2 ^ 12 % 2 ^ 40 := by
    refine Nat.eq_of_testBit_eq fun i => ?_
    rw [Nat.testBit_mod_two_pow, Nat.testBit_div_two_pow, Nat.add_comm i 12]
    have h := pdeGetAddress_getLsbD pde i
    rwa [Nat.add_comm i 12] at h
  rw [pdeFrame, BitVec.toNat_shiftLeft, haddress, Nat.shiftLeft_eq, entryFrame]
  omega

theorem pdeFrame_linkEntry (pde : PageDirEntry) (address : ℕ) :
    pdeFrame (linkEntry pde address) = frameOf address := by
  rw [linkEntry, pdeFrame_setFlag, pdeFrame_setFlag, pdeFrame_setAddress, frameOf]

theorem linkEntry_present (pde : PageDirEntry) (address : ℕ) :
    pdeGetFlag (linkEntry pde address) .present = true := by
  simp [linkEntry, pdeGetFlag_setFlag]

theorem linkEntry_readWrite (pde : PageDirEntry) (address : ℕ) :
    pdeGetFlag (linkEntry pde address) .readWrite = true := by
  simp [linkEntry, pdeGetFlag_setFlag]

theorem linkEntry_largePages (pde : PageDirEntry) (address : ℕ) :
    pdeGetFlag (linkEntry pde address) .largePages = pdeGetFlag pde .largePages := by
  simp [linkEntry, pdeGetFlag_setFlag, pdeGetFlag_setAddress]

theorem readEntry_congr {m m' : Mem} {t index : ℕ} (h : Agree m m' t 4096)
    (ht : t + 4096 ≤ 2 ^ 64) (hi : index < 512) : readEntry m' t index = readEntry m t index := by
  rw [readEntry, readEntry, load64, (h.mono (by omega) (by omega)).loadLE_eq (by omega)]

theorem readEntry_writeEntry (m : Mem) (t index : ℕ) (pde : PageDirEntry) :
    readEntry (writeEntry m t index pde) t index = pde := by
  rw [readEntry, writeEntry, load64_store64 _ _ pde.isLt, BitVec.ofNat_toNat, BitVec.setWidth_eq]

theorem writeEntry_outside_bytes (m : Mem) {t index x : ℕ} (pde : PageDirEntry)
    (ht : t + 8 * index + 8 ≤ 2 ^ 64) (hx : x < t + 8 * index ∨ t + 8 * index + 8 ≤ x) :
    writeEntry m t index pde x = m x :=
  store64_outside _ _ ht hx

theorem writeEntry_outside (m : Mem) {t index x : ℕ} (pde : PageDirEntry)
    (ht : t + 4096 ≤ 2 ^ 64) (hi : index < 512) (hx : ¬ InFrame t x) :
    writeEntry m t index pde x = m x := by
  rw [InFrame] at hx
  exact writeEntry_outside_bytes _ _ (by omega) (by omega)

theorem readEntry_writeEntry_ne (m : Mem) {t u index j : ℕ} (pde : PageDirEntry)
    (ht : FrameAddress t) (hu : FrameAddress u) (hi : index < 512) (hj : j < 512)
    (h : u ≠ t ∨ j ≠ index) : readEntry (writeEntry m t index pde) u j = readEntry m u j := by
  have hdisjoint : u ≠ t → u + 4096 ≤ t ∨ t + 4096 ≤ u := hu.disjoint ht
  obtain ⟨_, _, ht⟩ := ht
  obtain ⟨_, _, hu⟩ := hu
  rw [readEntry, readEntry, writeEntry,
    load64_store64_disjoint _ _ (by omega) (by omega) (by omega)]

theorem readEntry_memSet64 (m : Mem) {t index : ℕ} (ht : FrameAddress t) (hi : index < 512) :
    readEntry (memSet64 m t 0 frameSize) t index = 0#64 := by
  obtain ⟨_, _, ht⟩ := ht
  have hzero : load64 (memSet64 m t 0 frameSize) (t + 8 * index) = 0 := by
    apply loadLE_zero
    intro j hj
    rw [show t + 8 * index + j = t + (8 * index + j) by omega]
    exact memSet64_zero m t frameSize _ (by unfold frameSize; omega) (by unfold frameSize; omega)
  rw [readEntry, hzero]

theorem memSet64_outside_frame (m : Mem) {t x : ℕ} (ht : t + 4096 ≤ 2 ^ 64)
    (hx : ¬ InFrame t x) : memSet64 m t 0 frameSize x = m x := by
  rw [InFrame] at hx
  refine memSet64_outside m t frameSize x (by unfold frameSize; omega) ?_
  refine Outside.of_range ?_ ?_ <;> unfold frameSize <;> omega

theorem path_length (virtualAddress : ℕ) : (path virtualAddress).length = 4 := rfl

end Rizzos.PageTableManager
