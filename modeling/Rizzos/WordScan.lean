import Rizzos.WordFill

set_option autoImplicit false

/-!
# Bytes of a word, looked for all at once

Subtracting one from every byte of a word borrows out of the top bit of a byte only if that byte
or one below it is zero, so the lowest zero byte always shows.
-/
namespace Rizzos.WordScan
open ByteMemory WordFill

abbrev Word := BitVec 32

def ones : Word := 0x01010101#32

def tops : Word := 0x80808080#32

theorem and_tops_eq_zero_iff (v : Word) : v &&& tops = 0#32 ↔
    v.getLsbD 7 = false ∧ v.getLsbD 15 = false ∧ v.getLsbD 23 = false ∧ v.getLsbD 31 = false := by
  have htop : ∀ i : ℕ, i < 32 → tops.getLsbD i = decide (i = 7 ∨ i = 15 ∨ i = 23 ∨ i = 31) := by
    decide
  constructor
  · intro h
    have hbit : ∀ i, tops.getLsbD i = true → v.getLsbD i = false := by
      intro i hi
      have := congrArg (fun w => BitVec.getLsbD w i) h
      simpa [BitVec.getLsbD_and, hi] using this
    exact ⟨hbit 7 rfl, hbit 15 rfl, hbit 23 rfl, hbit 31 rfl⟩
  · rintro ⟨h7, h15, h23, h31⟩
    apply BitVec.eq_of_getLsbD_eq
    intro i hi
    rw [BitVec.getLsbD_and, htop i hi, BitVec.getLsbD_zero]
    by_cases hcase : i = 7 ∨ i = 15 ∨ i = 23 ∨ i = 31
    · rcases hcase with rfl | rfl | rfl | rfl <;> simp_all
    · simp [hcase]

theorem wordByte_eq_zero_iff (v : Word) (i : ℕ) :
    wordByte v.toNat i = 0#8 ↔ v.toNat / 256 ^ i % 256 = 0 := by
  rw [← BitVec.toNat_inj]
  simp [wordByte]

theorem zeroByte_iff (v : Word) :
    (v - ones) &&& (~~~v &&& tops) ≠ 0#32 ↔ ∃ i < 4, wordByte v.toNat i = 0#8 := by
  have hlt : v.toNat < 2 ^ 32 := v.isLt
  have hbit : ∀ (x : Word) (i : ℕ), x.getLsbD i = decide (x.toNat / 2 ^ i % 2 = 1) := by
    intro x i
    rw [BitVec.getLsbD, Nat.testBit_eq_decide_div_mod_eq]
  have hsub : (v - ones).toNat = (2 ^ 32 - 0x01010101 + v.toNat) % 2 ^ 32 := by
    rw [BitVec.toNat_sub]
    rfl
  have hbytes : (∃ i < 4, wordByte v.toNat i = 0#8) ↔ v.toNat % 256 = 0 ∨ v.toNat / 256 % 256 = 0 ∨
      v.toNat / 256 ^ 2 % 256 = 0 ∨ v.toNat / 256 ^ 3 % 256 = 0 := by
    simp only [wordByte_eq_zero_iff]
    constructor
    · rintro ⟨i, hi, h⟩
      interval_cases i <;> simp_all
    · rintro (h | h | h | h)
      · exact ⟨0, by decide, by simpa using h⟩
      · exact ⟨1, by decide, by simpa using h⟩
      · exact ⟨2, by decide, h⟩
      · exact ⟨3, by decide, h⟩
  rw [hbytes, ← BitVec.and_assoc, Ne, and_tops_eq_zero_iff]
  simp only [BitVec.getLsbD_and, BitVec.getLsbD_not]
  simp only [hbit, hsub, Nat.reduceLT, decide_true, Bool.true_and, Bool.and_eq_false_imp,
    decide_eq_true_eq, Bool.not_eq_false']
  omega

/-- A word has a byte that is also in the same place of a word of ASCII characters. -/
theorem sameByte_iff (v : Word) {p : Word} (hp : p &&& tops = 0#32) :
    ((v ^^^ p) - ones) &&& (~~~v &&& tops) ≠ 0#32 ↔ ∃ i < 4, wordByte v.toNat i = wordByte p.toNat i := by
  have hnot : ~~~v &&& tops = ~~~(v ^^^ p) &&& tops := by
    apply BitVec.eq_of_getLsbD_eq
    intro i hi
    have hbit := congrArg (fun w => BitVec.getLsbD w i) hp
    simp only [BitVec.getLsbD_and, BitVec.getLsbD_zero] at hbit
    simp only [BitVec.getLsbD_and, BitVec.getLsbD_not, BitVec.getLsbD_xor]
    cases htop : tops.getLsbD i
    · simp
    · rw [htop, Bool.and_true] at hbit
      simp [hbit]
  rw [hnot, zeroByte_iff]
  apply exists_congr
  intro i
  apply and_congr_right
  intro _
  have hxor : wordByte (v ^^^ p).toNat i = wordByte v.toNat i ^^^ wordByte p.toNat i := by
    have hbase : 256 ^ i = 2 ^ (8 * i) := (pow_mul 2 8 i).symm
    simp only [wordByte, hbase, ← Nat.shiftRight_eq_div_pow, BitVec.toNat_xor,
      Nat.shiftRight_xor_distrib, BitVec.ofNat_xor]
  rw [hxor]
  exact BitVec.xor_eq_zero_iff

theorem wordByte_load32 (m : Mem) (a : ℕ) {i : ℕ} (hi : i < 4) :
    wordByte (BitVec.ofNat 32 (load32 m a)).toNat i = load8 m (a + i) := by
  have hlt : load32 m a < 2 ^ 32 := by simpa using loadLE_lt m a 4
  rw [wordByte, BitVec.toNat_ofNat, Nat.mod_eq_of_lt hlt]
  exact (loadLE_apply m hi).symm

end Rizzos.WordScan
