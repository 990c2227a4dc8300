import Rizzos.ByteMemory

set_option autoImplicit false

/-! Page directory entries (`paging.c`) and the split of a virtual address into table
indices (`page_map_indexer.c`). -/
namespace Rizzos.Paging
open ByteMemory

abbrev PageDirEntry := BitVec 64

inductive PtFlag where
  | present
  | readWrite
  | userSuper
  | writeThrough
  | cacheDisabled
  | accessed
  | dirty
  | largePages
  | global
  | access0
  | access1
  | access2
  | nx
deriving DecidableEq, Repr

def PtFlag.bit : PtFlag → ℕ
  | present => 0
  | readWrite => 1
  | userSuper => 2
  | writeThrough => 3
  | cacheDisabled => 4
  | accessed => 5
  | dirty => 6
  | largePages => 7
  | global => 8
  | access0 => 9
  | access1 => 10
  | access2 => 11
  | nx => 63

def pdeSetFlag (pde : PageDirEntry) (flag : PtFlag) (enabled : Bool) : PageDirEntry :=
  let bitMask := 1#64 <<< flag.bit
  let value := pde &&& ~~~bitMask
  if enabled then value ||| bitMask else value

def pdeGetFlag (pde : PageDirEntry) (flag : PtFlag) : Bool :=
  let bitMask := 1#64 <<< flag.bit
  pde &&& bitMask > 0#64

def pdeSetAddress (pde : PageDirEntry) (address : BitVec 64) : PageDirEntry :=
  let address := address &&& 0x000000ffffffffff#64
  let value := pde &&& 0xfff0000000000fff#64
  value ||| (address <<< 12)

def pdeGetAddress (pde : PageDirEntry) : BitVec 64 := (pde &&& 0x000ffffffffff000#64) >>> 12

theorem PtFlag.bit_range (flag : PtFlag) : flag.bit < 12 ∨ flag.bit = 63 := by
  cases flag <;> decide

theorem PtFlag.bit_injective {f g : PtFlag} (h : f.bit = g.bit) : f = g := by
  cases f <;> cases g <;> first | rfl | exact absurd h (by decide)

theorem bitMask_getLsbD (flag : PtFlag) (i : ℕ) :
    (1#64 <<< flag.bit).getLsbD i = decide (i = flag.bit) := by
  have hb := flag.bit_range
  simp only [BitVec.getLsbD_shiftLeft, BitVec.getLsbD_one, Bool.and_eq_decide]
  grind

theorem addressMask_getLsbD {i : ℕ} (hi : i < 64) :
    (0x000000ffffffffff#64).getLsbD i = decide (i < 40) := by
  revert i
  decide

theorem addressMask_toNat (address : BitVec 64) :
    (address &&& 0x000000ffffffffff#64).toNat = address.toNat % 2 ^ 40 := by
  rw [BitVec.toNat_and]
  exact Nat.and_two_pow_sub_one_eq_mod _ 40

theorem flagMask_getLsbD {i : ℕ} (hi : i < 64) :
    (0xfff0000000000fff#64).getLsbD i = decide (i < 12 ∨ 52 ≤ i) := by
  revert i
  decide

theorem fieldMask_getLsbD {i : ℕ} (hi : i < 64) :
    (0x000ffffffffff000#64).getLsbD i = decide (12 ≤ i ∧ i < 52) := by
  revert i
  decide

theorem pdeGetFlag_eq (pde : PageDirEntry) (flag : PtFlag) :
    pdeGetFlag pde flag = pde.getLsbD flag.bit := by
  have hmask : pde &&& 1#64 <<< flag.bit =
      if pde.getLsbD flag.bit then 1#64 <<< flag.bit else 0#64 := by
    rw [← BitVec.twoPow_eq, BitVec.and_twoPow]
  have hpos : ∀ flag : PtFlag, 1#64 <<< flag.bit > 0#64 := by
    intro flag
    cases flag <;> decide
  rw [pdeGetFlag, hmask]
  cases pde.getLsbD flag.bit with
  | false => rfl
  | true => exact decide_eq_true (hpos flag)

theorem pdeSetFlag_getLsbD (pde : PageDirEntry) (flag : PtFlag) (enabled : Bool) {i : ℕ}
    (hi : i < 64) : (pdeSetFlag pde flag enabled).getLsbD i =
      if i = flag.bit then enabled else pde.getLsbD i := by
  have hcleared : (pde &&& ~~~(1#64 <<< flag.bit)).getLsbD i =
      (pde.getLsbD i && !decide (i = flag.bit)) := by
    rw [BitVec.getLsbD_and, BitVec.getLsbD_not, bitMask_getLsbD, decide_eq_true hi, Bool.true_and]
  cases enabled with
  | false =>
    change (pde &&& ~~~(1#64 <<< flag.bit)).getLsbD i = _
    rw [hcleared]
    by_cases hif : i = flag.bit <;> simp [hif]
  | true =>
    change (pde &&& ~~~(1#64 <<< flag.bit) ||| 1#64 <<< flag.bit).getLsbD i = _
    rw [BitVec.getLsbD_or, hcleared, bitMask_getLsbD]
    by_cases hif : i = flag.bit <;> simp [hif]

theorem pdeSetAddress_getLsbD (pde : PageDirEntry) (address : BitVec 64) {i : ℕ} (hi : i < 64) :
    (pdeSetAddress pde address).getLsbD i =
      if 12 ≤ i ∧ i < 52 then address.getLsbD (i - 12) else pde.getLsbD i := by
  simp only [pdeSetAddress, BitVec.getLsbD_or, BitVec.getLsbD_and, BitVec.getLsbD_shiftLeft,
    flagMask_getLsbD hi, addressMask_getLsbD (show i - 12 < 64 by omega)]
  by_cases hfield : 12 ≤ i ∧ i < 52
  · have hlow : ¬ (i < 12 ∨ 52 ≤ i) := by omega
    have h12 : ¬ i < 12 := by omega
    have h40 : i - 12 < 40 := by omega
    simp [hfield, h12, h40, hi]
  · have hlow : i < 12 ∨ 52 ≤ i := by omega
    simp only [hfield, if_false, hlow, decide_true, Bool.and_true]
    by_cases h12 : i < 12
    · simp [h12]
    · simp [h12, show ¬ i - 12 < 40 by omega]

theorem pdeGetAddress_getLsbD (pde : PageDirEntry) (i : ℕ) :
    (pdeGetAddress pde).getLsbD i = (decide (i < 40) && pde.getLsbD (i + 12)) := by
  rw [pdeGetAddress, BitVec.getLsbD_ushiftRight, BitVec.getLsbD_and, Nat.add_comm 12 i]
  by_cases h : i + 12 < 64
  · rw [fieldMask_getLsbD h, Bool.and_comm]
    congr 1
    exact decide_eq_decide.2 (by omega)
  · simp [BitVec.getLsbD_of_ge _ _ (show 64 ≤ i + 12 by omega)]

/-- The four indices are stored one after another from the address of the struct. -/
def pdpField : ℕ := 0
def pdField : ℕ := 8
def ptField : ℕ := 16
def pField : ℕ := 24

/-- `PMI_Create` fills in the struct behind the pointer `{0}`, the null pointer, and
    returns it. -/
def pmiCreate (virtualAddress : ℕ) (m : Mem) : ℕ × Mem :=
  let pmi := 0
  let virtualAddress := virtualAddress >>> 12
  let m := store64 m (pmi + pField) (virtualAddress &&& 0x1ff)
  let virtualAddress := virtualAddress >>> 9
  let m := store64 m (pmi + ptField) (virtualAddress &&& 0x1ff)
  let virtualAddress := virtualAddress >>> 9
  let m := store64 m (pmi + pdField) (virtualAddress &&& 0x1ff)
  let virtualAddress := virtualAddress >>> 9
  let m := store64 m (pmi + pdpField) (virtualAddress &&& 0x1ff)
  (pmi, m)

def tableIndex (level virtualAddress : ℕ) : ℕ := virtualAddress / 2 ^ (12 + 9 * level) % 512

theorem tableIndex_lt (level virtualAddress : ℕ) : tableIndex level virtualAddress < 512 :=
  Nat.mod_lt _ (by decide)

theorem shiftRight_and_index (virtualAddress n : ℕ) :
    virtualAddress >>> n &&& 0x1ff = virtualAddress / 2 ^ n % 512 := by
  rw [Nat.shiftRight_eq_div_pow]
  exact Nat.and_two_pow_sub_one_eq_mod _ 9

theorem pmiCreate_outside (virtualAddress : ℕ) (m : Mem) {x : ℕ} (hx : 32 ≤ x) :
    (pmiCreate virtualAddress m).2 x = m x := by
  simp only [pmiCreate, pField, ptField, pdField, pdpField]
  rw [store64_outside _ _ (by omega) (by omega), store64_outside _ _ (by omega) (by omega),
    store64_outside _ _ (by omega) (by omega), store64_outside _ _ (by omega) (by omega)]

theorem pmiCreate_fields (virtualAddress : ℕ) (m : Mem) :
    (pmiCreate virtualAddress m).1 = 0 ∧
    load64 (pmiCreate virtualAddress m).2 pdpField = tableIndex 3 virtualAddress ∧
    load64 (pmiCreate virtualAddress m).2 pdField = tableIndex 2 virtualAddress ∧
    load64 (pmiCreate virtualAddress m).2 ptField = tableIndex 1 virtualAddress ∧
    load64 (pmiCreate virtualAddress m).2 pField = tableIndex 0 virtualAddress := by
  have hlt : ∀ n, virtualAddress >>> n &&& 0x1ff < 2 ^ 64 := fun n => by
    rw [shiftRight_and_index]
    omega
  simp only [pmiCreate, pField, ptField, pdField, pdpField, ← Nat.shiftRight_add]
  refine ⟨trivial, ?_, ?_, ?_, ?_⟩
  · rw [load64_store64 _ _ (hlt _), shiftRight_and_index]
    rfl
  · rw [load64_store64_disjoint _ _ (by omega) (by omega) (by omega), load64_store64 _ _ (hlt _),
      shiftRight_and_index]
    rfl
  · rw [load64_store64_disjoint _ _ (by omega) (by omega) (by omega),
      load64_store64_disjoint _ _ (by omega) (by omega) (by omega), load64_store64 _ _ (hlt _),
      shiftRight_and_index]
    rfl
  · rw [load64_store64_disjoint _ _ (by omega) (by omega) (by omega),
      load64_store64_disjoint _ _ (by omega) (by omega) (by omega),
      load64_store64_disjoint _ _ (by omega) (by omega) (by omega), load64_store64 _ _ (hlt _),
      shiftRight_and_index]
    rfl

theorem pdeGetFlag_setFlag (pde : PageDirEntry) (f g : PtFlag) (enabled : Bool) :
    pdeGetFlag (pdeSetFlag pde f enabled) g = if g = f then enabled else pdeGetFlag pde g := by
  have hb := g.bit_range
  rw [pdeGetFlag_eq, pdeSetFlag_getLsbD _ _ _ (by omega), pdeGetFlag_eq]
  by_cases h : g = f
  · rw [h, if_pos rfl, if_pos rfl]
  · rw [if_neg h, if_neg fun e => h (PtFlag.bit_injective e)]

theorem pdeGetFlag_setAddress (pde : PageDirEntry) (address : BitVec 64) (flag : PtFlag) :
    pdeGetFlag (pdeSetAddress pde address) flag = pdeGetFlag pde flag := by
  have hb := flag.bit_range
  rw [pdeGetFlag_eq, pdeSetAddress_getLsbD _ _ (by omega), if_neg (by omega), pdeGetFlag_eq]

theorem pdeGetAddress_setFlag (pde : PageDirEntry) (flag : PtFlag) (enabled : Bool) :
    pdeGetAddress (pdeSetFlag pde flag enabled) = pdeGetAddress pde := by
  have hb := flag.bit_range
  refine BitVec.eq_of_getLsbD_eq fun i _ => ?_
  rw [pdeGetAddress_getLsbD, pdeGetAddress_getLsbD]
  by_cases hi : i < 40
  · rw [pdeSetFlag_getLsbD _ _ _ (by omega), if_neg (by omega)]
  · simp [hi]

theorem pdeGetAddress_setAddress (pde : PageDirEntry) (address : BitVec 64) :
    pdeGetAddress (pdeSetAddress pde address) = address &&& 0x000000ffffffffff#64 := by
  refine BitVec.eq_of_getLsbD_eq fun i hi => ?_
  rw [pdeGetAddress_getLsbD, BitVec.getLsbD_and, addressMask_getLsbD hi]
  by_cases h : i < 40
  · rw [pdeSetAddress_getLsbD _ _ (by omega), if_pos (by omega), Nat.add_sub_cancel]
    simp [h]
  · simp [h]

def pdeFrame (pde : PageDirEntry) : ℕ := (pdeGetAddress pde <<< 12).toNat

theorem pdeFrame_setAddress (pde : PageDirEntry) (address : ℕ) :
    pdeFrame (pdeSetAddress pde (BitVec.ofNat 64 address)) = address % 2 ^ 40 * 4096 := by
  have hmask : (BitVec.ofNat 64 address &&& 0x000000ffffffffff#64).toNat = address % 2 ^ 40 := by
    rw [addressMask_toNat, BitVec.toNat_ofNat]
    omega
  rw [pdeFrame, pdeGetAddress_setAddress, BitVec.toNat_shiftLeft, hmask, Nat.shiftLeft_eq]
  omega

theorem pdeFrame_setFlag (pde : PageDirEntry) (flag : PtFlag) (enabled : Bool) :
    pdeFrame (pdeSetFlag pde flag enabled) = pdeFrame pde := by
  rw [pdeFrame, pdeGetAddress_setFlag, pdeFrame]

/-! ### The fields of an entry -/

/-- The address and the flags of an entry are fields of their own. -/
structure FieldLaws (pde : PageDirEntry) (address : BitVec 64) (f g : PtFlag) (b c : Bool) :
    Prop where
  address_set : (pdeGetAddress (pdeSetAddress pde address)).toNat = address.toNat % 2 ^ 40
  flagBits_kept : ∀ i < 64, i < 12 ∨ 52 ≤ i →
    (pdeSetAddress pde address).getLsbD i = pde.getLsbD i
  flag_set : pdeGetFlag (pdeSetFlag pde f b) f = b
  address_kept : pdeGetAddress (pdeSetFlag pde f b) = pdeGetAddress pde
  flag_kept : pdeGetFlag (pdeSetFlag pde f b) g = pdeGetFlag pde g
  flags_commute : pdeSetFlag (pdeSetFlag pde f b) g c = pdeSetFlag (pdeSetFlag pde g c) f b
  address_commute : pdeSetFlag (pdeSetAddress pde address) f b =
    pdeSetAddress (pdeSetFlag pde f b) address

theorem pdeSetFlag_comm (pde : PageDirEntry) {f g : PtFlag} (hfg : f ≠ g) (b c : Bool) :
    pdeSetFlag (pdeSetFlag pde f b) g c = pdeSetFlag (pdeSetFlag pde g c) f b := by
  have hbit : f.bit ≠ g.bit := fun h => hfg (PtFlag.bit_injective h)
  apply BitVec.eq_of_getLsbD_eq
  intro i hi
  rw [pdeSetFlag_getLsbD _ _ _ hi, pdeSetFlag_getLsbD _ _ _ hi, pdeSetFlag_getLsbD _ _ _ hi,
    pdeSetFlag_getLsbD _ _ _ hi]
  by_cases hf : i = f.bit
  · rw [if_neg fun hg => hbit (hf.symm.trans hg), if_pos hf, if_pos hf]
  · rw [if_neg hf, if_neg hf]

theorem pdeSetFlag_setAddress (pde : PageDirEntry) (address : BitVec 64) (f : PtFlag) (b : Bool) :
    pdeSetFlag (pdeSetAddress pde address) f b = pdeSetAddress (pdeSetFlag pde f b) address := by
  have hb := f.bit_range
  apply BitVec.eq_of_getLsbD_eq
  intro i hi
  rw [pdeSetFlag_getLsbD _ _ _ hi, pdeSetAddress_getLsbD _ _ hi, pdeSetAddress_getLsbD _ _ hi,
    pdeSetFlag_getLsbD _ _ _ hi]
  by_cases hf : i = f.bit
  · rw [if_pos hf, if_neg (by omega), if_pos hf]
  · rw [if_neg hf, if_neg hf]

theorem pde_fieldLaws (pde : PageDirEntry) (address : BitVec 64) {f g : PtFlag} (hfg : f ≠ g)
    (b c : Bool) : FieldLaws pde address f g b c where
  address_set := by rw [pdeGetAddress_setAddress, addressMask_toNat]
  flagBits_kept := by
    intro i hi hflag
    rw [pdeSetAddress_getLsbD _ _ hi, if_neg (by omega)]
  flag_set := by rw [pdeGetFlag_setFlag, if_pos rfl]
  address_kept := pdeGetAddress_setFlag pde f b
  flag_kept := by rw [pdeGetFlag_setFlag, if_neg hfg.symm]
  flags_commute := pdeSetFlag_comm pde hfg b c
  address_commute := pdeSetFlag_setAddress pde address f b

theorem pde_fieldLaws_nx :
    FieldLaws 0xfff0000000000fff 0x123456789abcdef0 .present .nx false true :=
  pde_fieldLaws _ _ (by decide) _ _

end Rizzos.Paging
